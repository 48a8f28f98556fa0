import Cntr.CallTreeLogic

/-!
Programs that make only some of the calls, and what such programs leave as it
is; runs against one kernel as runs against another.
-/

namespace Cntr.CallTree

variable {S : Signature} {η ε ε' σ τ : Type} {α β γ : Type}

/-- The kernel that remembers, oldest first, the answers it gave, and gives only
those that are possible after what happened before. -/
def recording (Possible : List (Event S) → Event S → Prop) : Kernel S (List (Event S)) :=
  fun log c r log' => log' = log ++ [⟨c, r⟩] ∧ Possible log ⟨c, r⟩

theorem filterMap_concat (f : α → Option β) (xs : List α) (x : α) :
    (xs ++ [x]).filterMap f = xs.filterMap f ++ (f x).toList := by
  rw [List.filterMap_append]
  cases h : f x with
  | none => simp [h]
  | some y => simp [h]

/-- The kernel that remembers the answers and always gives a call the same one. -/
def replying (answer : (c : S.Call) → S.Answer c) : Kernel S (List (Event S)) :=
  fun log c r log' => r = answer c ∧ log' = log ++ [⟨c, r⟩]

def Outcome.mapError (f : ε → ε') : Outcome η ε α → Outcome η ε' α
  | .value a => .value a
  | .error e => .error (f e)
  | .halted h => .halted h

/-- If the process ends with `h`, then in a state that satisfies `P`. -/
def OnHalt (h : η) (P : σ → Prop) (o : Outcome η ε α) (s : σ) : Prop := o = .halted h → P s

theorem OnHalt.of_ne {h : η} {P : σ → Prop} {o : Outcome η ε α} {s : σ} (hne : o ≠ .halted h) :
    OnHalt h P o s := fun heq => absurd heq hne

namespace Program

/-- Every call the program can make satisfies `calls`, and every way in which it
can end its process satisfies `halts`. -/
def Within (calls : S.Call → Prop) (halts : η → Prop) :
    {α : Type} → Program S η ε α → Prop
  | _, .done _ => True
  | _, .fail _ => True
  | _, .halt h => halts h
  | _, .ask c k => calls c ∧ ∀ r, (k r).Within calls halts
  | _, .iterate body _ k =>
      (∀ b, (body b).Within calls halts) ∧ ∀ c, (k c).Within calls halts

section Within

variable {calls : S.Call → Prop} {halts : η → Prop}

@[simp] theorem within_done (a : α) :
    (done a : Program S η ε α).Within calls halts ↔ True := Iff.rfl

@[simp] theorem within_fail (e : ε) :
    (fail e : Program S η ε α).Within calls halts ↔ True := Iff.rfl

@[simp] theorem within_halt (h : η) :
    (halt h : Program S η ε α).Within calls halts ↔ halts h := Iff.rfl

@[simp] theorem within_ask (c : S.Call) (k : S.Answer c → Program S η ε α) :
    (ask c k).Within calls halts ↔ calls c ∧ ∀ r, (k r).Within calls halts := Iff.rfl

@[simp] theorem within_call (c : S.Call) :
    (call c : Program S η ε (S.Answer c)).Within calls halts ↔ calls c := by
  simp [call]

@[simp] theorem within_iterate (body : β → Program S η ε (β ⊕ γ)) (b : β)
    (k : γ → Program S η ε α) :
    (iterate body b k).Within calls halts ↔
      (∀ b, (body b).Within calls halts) ∧ ∀ c, (k c).Within calls halts := Iff.rfl

@[simp] theorem Within.bind {p : Program S η ε α} {f : α → Program S η ε β}
    (hp : p.Within calls halts) (hf : ∀ a, (f a).Within calls halts) :
    (p.bind f).Within calls halts := by
  induction p with
  | stop o =>
      cases o with
      | value a => exact hf a
      | error e => trivial
      | halted h => exact hp
  | ask c k ih => exact ⟨hp.1, fun r => ih r (hp.2 r) hf⟩
  | iterate body b k _ ihK => exact ⟨hp.1, fun c => ihK c (hp.2 c) hf⟩

@[simp] theorem within_call_bind (c : S.Call) (f : S.Answer c → Program S η ε α) :
    (@bind S η ε (no_index (S.Answer c)) α (call c) f).Within calls halts ↔
      calls c ∧ ∀ r, (f r).Within calls halts := Iff.rfl

theorem Within.ofExcept {f : ε → ε'} (r : Except ε α) {k : α → Program S η ε' β}
    (hk : ∀ a, (k a).Within calls halts) : ((ofExcept f r).bind k).Within calls halts := by
  cases r with
  | ok a => exact hk a
  | error e => trivial

theorem Within.check {c : S.Call} {f : ε → ε'} {g : S.Answer c → Except ε α}
    {k : α → Program S η ε' β} (hc : calls c) (hk : ∀ a, (k a).Within calls halts) :
    ((call c).bind fun r => (Program.ofExcept f (g r)).bind k).Within calls halts :=
  ⟨hc, fun r => .ofExcept (g r) hk⟩

@[simp] theorem Within.attempt {p : Program S η ε α} (hp : p.Within calls halts) :
    (p.attempt : Program S η ε' (Except ε α)).Within calls halts := by
  induction p with
  | stop o =>
      cases o with
      | value a => trivial
      | error e => trivial
      | halted h => exact hp
  | ask c k ih => exact ⟨hp.1, fun r => ih r (hp.2 r)⟩
  | iterate body b k ihBody ihK =>
      refine ⟨fun b => (ihBody b (hp.1 b)).bind fun _ => trivial, ?_⟩
      rintro (e | c)
      · trivial
      · exact ihK c (hp.2 c)

@[simp] theorem within_ofExcept (f : ε → ε') (r : Except ε α) :
    (ofExcept f r : Program S η ε' α).Within calls halts ↔ True := by
  cases r <;> exact Iff.rfl

@[simp] theorem Within.mapError {f : ε → ε'} {p : Program S η ε α} (hp : p.Within calls halts) :
    (p.mapError f).Within calls halts :=
  hp.attempt.bind fun r => (within_ofExcept f r).mpr trivial

@[simp] theorem Within.forEach {ι : Type} {body : ι → Program S η ε Unit}
    (hbody : ∀ x, (body x).Within calls halts) (xs : List ι) :
    (forEach body xs).Within calls halts := by
  induction xs with
  | nil => trivial
  | cons x xs ih => exact (hbody x).bind fun _ => ih

theorem Within.mono {calls' : S.Call → Prop} {halts' : η → Prop}
    (hcalls : ∀ c, calls c → calls' c) (hhalts : ∀ h, halts h → halts' h)
    {p : Program S η ε α} (hp : p.Within calls halts) : p.Within calls' halts' := by
  induction p with
  | stop o =>
      cases o with
      | value a => trivial
      | error e => trivial
      | halted h => exact hhalts h hp
  | ask c k ih => exact ⟨hcalls c hp.1, fun r => ih r (hp.2 r)⟩
  | iterate body b k ihBody ihK =>
      exact ⟨fun b => ihBody b (hp.1 b), fun c => ihK c (hp.2 c)⟩

/-- The frame rule: what the calls of a program preserve, the program does. -/
theorem Within.wp {K : Kernel S σ} {G : σ → S.Call → Prop} {I : σ → Prop}
    (hG : ∀ s c, I s → calls c → G s c)
    (hcall : ∀ s c r t, I s → calls c → K s c r t → I t) {p : Program S η ε α}
    (hp : p.Within calls halts) {s : σ} (hs : I s) :
    p.wp K G (fun o t => I t ∧ ∀ h, o = .halted h → halts h) s := by
  induction p generalizing s with
  | stop o =>
      refine ⟨hs, fun h ho => ?_⟩
      subst ho
      exact hp
  | ask c k ih =>
      refine ⟨hG s c hs hp.1, fun r t answer => ?_⟩
      exact ih r (hp.2 r) (hcall s c r t hs hp.1 answer)
  | iterate body b k ihBody ihK =>
      refine ⟨fun _ => I, hs, fun b s hs => ?_⟩
      refine wp_post (ihBody b (hp.1 b) hs) fun o t ho => ?_
      obtain ⟨ht, hhalts⟩ := ho
      rcases o with (b' | c) | e | h
      · exact ht
      · exact ihK c (hp.2 c) ht
      · exact ⟨ht, fun h hh => by cases hh⟩
      · exact ⟨ht, fun h' hh => hhalts h' (by cases hh; rfl)⟩

theorem Within.calls_of_issues {K : Kernel S σ} {p : Program S η ε α}
    (hp : p.Within calls halts) {s t : σ} {c : S.Call} (issue : p.Issues K s c t) : calls c :=
  issue.of_wp (hp.wp (G := fun _ c => calls c) (I := fun _ => True) (fun _ _ _ hc => hc)
    (fun _ _ _ _ _ _ _ => trivial) trivial)

theorem Within.halts_of_runs {K : Kernel S σ} {p : Program S η ε α}
    (hp : p.Within calls halts) {s t : σ} {h : η} (run : p.Runs K s (.halted h) t) : halts h :=
  (run.of_wp (hp.wp (G := fun _ _ => True) (I := fun _ => True) (fun _ _ _ _ => trivial)
    (fun _ _ _ _ _ _ _ => trivial) trivial)).2 h rfl

/-- A kernel that only adds to a log is left with the calls of the program. -/
theorem Within.wp_log {K : Kernel S (List (Event S))}
    {G : List (Event S) → S.Call → Prop}
    (hK : ∀ log c r log', K log c r log' → log' = log ++ [⟨c, r⟩]) {p : Program S η ε α}
    (hp : p.Within calls halts) {log : List (Event S)}
    (hG : ∀ seg c, (∀ ev ∈ seg, calls ev.1) → calls c → G (log ++ seg) c) :
    p.wp K G (fun o log' => ∃ seg, log' = log ++ seg ∧ (∀ ev ∈ seg, calls ev.1) ∧
      ∀ h, o = .halted h → halts h) log := by
  refine wp_mono (fun _ _ hG => hG) _ (fun o log' ho => ?_)
    (hp.wp (I := fun log' => ∃ seg, log' = log ++ seg ∧ ∀ ev ∈ seg, calls ev.1) ?_ ?_
      ⟨[], by simp, by simp⟩)
  · obtain ⟨⟨seg, hlog, hseg⟩, hhalts⟩ := ho
    exact ⟨seg, hlog, hseg, hhalts⟩
  · rintro _ c ⟨seg, rfl, hseg⟩ hc
    exact hG seg c hseg hc
  · rintro _ c r log' ⟨seg, rfl, hseg⟩ hc answer
    refine ⟨seg ++ [⟨c, r⟩], by rw [hK _ _ _ _ answer, List.append_assoc], ?_⟩
    intro ev hev
    rcases List.mem_append.mp hev with hev | hev
    · exact hseg ev hev
    · rw [List.mem_singleton.mp hev]
      exact hc

end Within

variable {K : Kernel S σ} {G : σ → S.Call → Prop}

/-- What holds whatever the answers are holds for a kernel that gives fewer. -/
theorem wp_of_fewer_answers {L : Kernel S σ} (hKL : ∀ s c r t, K s c r t → L s c r t)
    {p : Program S η ε α} {Q : Outcome η ε α → σ → Prop} {s : σ} (h : p.wp L G Q s) :
    p.wp K G Q s := by
  induction p generalizing s with
  | stop o => exact h
  | ask c k ih => exact ⟨h.1, fun r t answer => ih r (h.2 r t (hKL _ _ _ _ answer))⟩
  | iterate body b k ihBody ihK =>
      obtain ⟨I, hinit, hbody⟩ := h
      refine ⟨I, hinit, fun b s hI => ?_⟩
      refine wp_post (ihBody b (hbody b s hI)) fun o t ho => ?_
      refine Outcome.andThen_mono (fun x s hx => ?_) (fun _ _ hQ => hQ) ho
      cases x with
      | inl b => exact hx
      | inr c => exact ihK c hx

theorem wp_recording {Possible : List (Event S) → Event S → Prop}
    {G : List (Event S) → S.Call → Prop} {p : Program S η ε α}
    {Q : Outcome η ε α → List (Event S) → Prop} {log : List (Event S)}
    (h : p.wp (tracing S) G Q log) : p.wp (recording Possible) G Q log :=
  wp_of_fewer_answers (fun _ _ _ _ answer => answer.1) h

theorem wp_call_recording {Possible : List (Event S) → Event S → Prop}
    {G : List (Event S) → S.Call → Prop} (c : S.Call) (f : S.Answer c → Program S η ε α)
    (Q : Outcome η ε α → List (Event S) → Prop) (log : List (Event S)) :
    (@bind S η ε (no_index (S.Answer c)) α (call c) f).wp (recording Possible) G Q log ↔
      G log c ∧ ∀ r, Possible log ⟨c, r⟩ →
        (f r).wp (recording Possible) G Q (log ++ [⟨c, r⟩]) := by
  simp [recording]

theorem wp_mapError (f : ε → ε') (p : Program S η ε α)
    (Q : Outcome η ε' α → σ → Prop) (s : σ) :
    (p.mapError f).wp K G Q s ↔ p.wp K G (fun o => Q (o.mapError f)) s := by
  rw [mapError, wp_bind, wp_attempt]
  refine iff_of_eq (congrArg (fun post => p.wp K G post s) ?_)
  funext o t
  cases o <;> rfl

section OnHalt

variable {h : η} {P : σ → Prop} {s : σ}

theorem wp_onHalt_bind {p : Program S η ε α} {f : α → Program S η ε β}
    {R : Outcome η ε α → σ → Prop} (first : p.wp K G R s) (hne : ∀ t, ¬R (.halted h) t)
    (rest : ∀ a t, R (.value a) t → (f a).wp K G (OnHalt h P) t) :
    (p.bind f).wp K G (OnHalt h P) s := by
  refine wp_seq first fun o t ho => ?_
  cases o with
  | value a => exact rest a t ho
  | error e => exact .of_ne (by simp)
  | halted h' =>
      intro heq
      rw [Outcome.halted.inj heq] at ho
      exact absurd ho (hne t)

theorem wp_onHalt_mapError {f : ε → ε'} {p : Program S η ε α} (hp : p.wp K G (OnHalt h P) s) :
    (p.mapError f).wp K G (OnHalt h P) s := by
  rw [wp_mapError]
  refine wp_post hp fun o t ho => ?_
  cases o with
  | value a => exact fun heq => nomatch heq
  | error e => exact fun heq => nomatch heq
  | halted h' => exact fun heq => ho (congrArg Outcome.halted (Outcome.halted.inj heq))

/-- Whatever is done once the attempt has ended, the process does not end so. -/
theorem wp_onHalt_attempt {p : Program S η ε α} {f : Except ε α → Program S η ε' β}
    (hp : p.wp K G (OnHalt h P) s) (hf : ∀ r t, (f r).wp K G (OnHalt h P) t) :
    (p.attempt.bind f).wp K G (OnHalt h P) s := by
  rw [wp_bind, wp_attempt]
  refine wp_post hp fun o t ho => ?_
  cases o with
  | value a => exact hf (.ok a) t
  | error e => exact hf (.error e) t
  | halted h' => exact fun heq => ho (congrArg Outcome.halted (Outcome.halted.inj heq))

theorem Within.wp_onHalt {calls : S.Call → Prop} {p : Program S η ε α}
    (hp : p.Within calls fun h' => h' ≠ h) : p.wp K (fun _ _ => True) (OnHalt h P) s := by
  refine wp_post (hp.wp (I := fun _ => True) (fun _ _ _ _ => trivial)
    (fun _ _ _ _ _ _ _ => trivial) trivial) fun o t ho heq => ?_
  exact absurd rfl (ho.2 h heq)

end OnHalt

theorem attempt_bind (p : Program S η ε α) (f : α → Program S η ε β) :
    ((p.bind f).attempt : Program S η ε' (Except ε β)) =
      p.attempt.bind fun r => orError r fun a => (f a).attempt := by
  induction p with
  | stop o => cases o <;> rfl
  | ask c k ih => exact congrArg (ask c) (funext fun r => ih r f)
  | iterate body b k _ ih =>
      refine congrArg (iterate _ b) (funext fun r => ?_)
      cases r with
      | ok c => exact ih c f
      | error e => rfl

theorem wp_and {Q R : Outcome η ε α → σ → Prop} {p : Program S η ε α} {s : σ}
    (hQ : p.wp K G Q s) (hR : p.wp K (fun _ _ => True) R s) :
    p.wp K G (fun o t => Q o t ∧ R o t) s := by
  apply wp_of_runs
  · intro o t run
    exact ⟨run.of_wp hQ, run.of_wp hR⟩
  · intro c t issue
    exact issue.of_wp hQ

theorem wp_guards {G' : σ → S.Call → Prop} {Q : Outcome η ε α → σ → Prop} {p : Program S η ε α}
    {s : σ} (h : p.wp K G Q s) (h' : p.wp K G' Q s) :
    p.wp K (fun s c => G s c ∧ G' s c) Q s :=
  wp_of_runs (fun _ _ run => run.of_wp h) fun _ _ issue => ⟨issue.of_wp h, issue.of_wp h'⟩

/-- What happened before a program is started makes no difference to it. -/
theorem wp_after {G : List (Event S) → S.Call → Prop}
    {Q : Outcome η ε α → List (Event S) → Prop} {p : Program S η ε α} {log : List (Event S)}
    (before : List (Event S)) (h : p.wp (tracing S) G Q log) :
    p.wp (tracing S) (fun log' c => ∃ seg, log' = before ++ seg ∧ G seg c)
      (fun o log' => ∃ seg, log' = before ++ seg ∧ Q o seg) (before ++ log) := by
  induction p generalizing log with
  | stop o => exact ⟨log, rfl, h⟩
  | ask c k ih =>
      refine ⟨⟨log, rfl, h.1⟩, fun r log' hlog => ?_⟩
      rw [tracing, List.append_assoc] at hlog
      rw [hlog]
      exact ih r (h.2 r _ rfl)
  | iterate body b k ihBody ihK =>
      obtain ⟨I, hinit, hbody⟩ := h
      refine ⟨fun b log' => ∃ seg, log' = before ++ seg ∧ I b seg, ⟨log, rfl, hinit⟩, ?_⟩
      rintro b _ ⟨seg, rfl, hI⟩
      refine wp_post (ihBody b (hbody b seg hI)) fun o log' ho => ?_
      obtain ⟨seg', rfl, ho⟩ := ho
      rcases o with (b' | c) | e | h
      · exact ⟨seg', rfl, ho⟩
      · exact ihK c ho
      · exact ⟨seg', rfl, ho⟩
      · exact ⟨seg', rfl, ho⟩

/-- The first round of a loop ends only in `o`, after which the loop is over. -/
theorem wp_lastRound {body : β → Program S η ε (β ⊕ γ)} {k : γ → Program S η ε α} {b : β}
    {s t : σ} {o : Outcome η ε (β ⊕ γ)} {Q : Outcome η ε α → σ → Prop}
    (round : (body b).wp K G (fun o' t' => o' = o ∧ t' = t) s)
    (rest : o.andThen (Sum.elim (fun _ _ => False) fun c => (k c).wp K G Q) Q t) :
    (iterate body b k).wp K G Q s := by
  refine ⟨fun b' s' => b' = b ∧ s' = s, ⟨rfl, rfl⟩, ?_⟩
  rintro _ _ ⟨rfl, rfl⟩
  refine wp_post round fun o' t' ho => ?_
  obtain ⟨rfl, rfl⟩ := ho
  refine Outcome.andThen_mono (fun x u hx => ?_) (fun _ _ hQ => hQ) rest
  cases x with
  | inl b => exact hx.elim
  | inr c => exact hx

/-- A kernel that leaves no choice is left with one run. -/
theorem Runs.wp_unique (hK : ∀ s c r r' t t', K s c r t → K s c r' t' → r' = r ∧ t' = t)
    {p : Program S η ε α} {s t : σ} {o : Outcome η ε α} (run : p.Runs K s o t) :
    p.wp K (fun _ _ => True) (fun o' t' => o' = o ∧ t' = t) s := by
  induction run with
  | stop o s => exact ⟨rfl, rfl⟩
  | ask answer _ ih =>
      refine ⟨trivial, fun r' t' answer' => ?_⟩
      obtain ⟨rfl, rfl⟩ := hK _ _ _ _ _ _ answer answer'
      exact ih
  | @again _ _ _ _ b b' _ _ s _ _ _ _ ihFirst ihRest =>
      obtain ⟨I, hinit, hbody⟩ := ihRest
      refine ⟨fun b'' s'' => b'' = b ∧ s'' = s ∨ I b'' s'', .inl ⟨rfl, rfl⟩, ?_⟩
      rintro b'' s'' (⟨rfl, rfl⟩ | hI)
      · refine wp_post ihFirst fun o' t' ho => ?_
        obtain ⟨rfl, rfl⟩ := ho
        exact .inr hinit
      · refine wp_post (hbody b'' s'' hI) fun o' t' ho => ?_
        refine Outcome.andThen_mono (fun x u hx => ?_) (fun _ _ hQ => hQ) ho
        cases x with
        | inl b => exact .inr hx
        | inr c => exact hx
  | leave _ _ ihFirst ihRest => exact wp_lastRound ihFirst ihRest
  | loopError _ ihFirst => exact wp_lastRound ihFirst ⟨rfl, rfl⟩
  | loopHalted _ ihFirst => exact wp_lastRound ihFirst ⟨rfl, rfl⟩

theorem Runs.unique {answer : (c : S.Call) → S.Answer c} {p : Program S η ε α}
    {log log₁ log₂ : List (Event S)} {o₁ o₂ : Outcome η ε α}
    (run₁ : p.Runs (replying answer) log o₁ log₁) (run₂ : p.Runs (replying answer) log o₂ log₂) :
    o₂ = o₁ ∧ log₂ = log₁ := by
  refine run₂.of_wp (run₁.wp_unique ?_)
  rintro log c r r' t t' ⟨rfl, rfl⟩ ⟨rfl, rfl⟩
  exact ⟨rfl, rfl⟩

theorem Runs.attempt {p : Program S η ε α} {s t : σ} {o : Outcome η ε α}
    (run : p.Runs K s o t) :
    (p.attempt : Program S η ε' (Except ε α)).Runs K s o.attempt t := by
  induction run with
  | stop o s => cases o <;> exact .stop _ s
  | ask answer _ ih => exact .ask answer ih
  | again _ _ ihFirst ihRest => exact .again (ihFirst.bind (.stop _ _)) ihRest
  | leave _ _ ihFirst ihRest => exact .leave (ihFirst.bind (.stop _ _)) ihRest
  | loopError _ ihFirst => exact .leave (ihFirst.bind (.stop _ _)) (.stop _ _)
  | loopHalted _ ihFirst => exact .loopHalted ihFirst.bind_halted

theorem Runs.mapError {f : ε → ε'} {p : Program S η ε α} {s t : σ} {o : Outcome η ε α}
    (run : p.Runs K s o t) : (p.mapError f).Runs K s (o.mapError f) t := by
  have hattempt : (p.attempt : Program S η ε' (Except ε α)).Runs K s o.attempt t :=
    run.attempt
  cases o with
  | value a => exact hattempt.bind (.stop _ _)
  | error e => exact hattempt.bind (.stop _ _)
  | halted h => exact hattempt.bind_halted

/-- The program ends so whenever it is run with these answers. -/
def Yields (answer : (c : S.Call) → S.Answer c) (p : Program S η ε α) (o : Outcome η ε α) :
    Prop :=
  ∀ log, ∃ log', p.Runs (replying answer) log o log'

section Yields

variable {answer : (c : S.Call) → S.Answer c}

theorem Yields.stop (o : Outcome η ε α) : (Program.stop o : Program S η ε α).Yields answer o :=
  fun log => ⟨log, .stop o log⟩

theorem Yields.reply {c : S.Call} {r : S.Answer c} (hr : answer c = r)
    {f : S.Answer c → Program S η ε α} {o : Outcome η ε α} (rest : (f r).Yields answer o) :
    ((Program.call c).bind f).Yields answer o := by
  intro log
  have hreply : replying answer log c r (log ++ [⟨c, r⟩]) := ⟨hr.symm, rfl⟩
  obtain ⟨log', hrest⟩ := rest (log ++ [⟨c, r⟩])
  exact ⟨log', .ask hreply hrest⟩

theorem Yields.bind {p : Program S η ε α} {f : α → Program S η ε β} {a : α}
    {o : Outcome η ε β} (first : p.Yields answer (.value a)) (rest : (f a).Yields answer o) :
    (p.bind f).Yields answer o := by
  intro log
  obtain ⟨log₁, hfirst⟩ := first log
  obtain ⟨log₂, hrest⟩ := rest log₁
  exact ⟨log₂, hfirst.bind hrest⟩

theorem Yields.bind_error {p : Program S η ε α} {f : α → Program S η ε β} {e : ε}
    (first : p.Yields answer (.error e)) : (p.bind f).Yields answer (.error e) := by
  intro log
  obtain ⟨log', hfirst⟩ := first log
  exact ⟨log', hfirst.bind_error⟩

theorem Yields.mapError {f : ε → ε'} {p : Program S η ε α} {o : Outcome η ε α}
    (h : p.Yields answer o) : (p.mapError f).Yields answer (o.mapError f) := by
  intro log
  obtain ⟨log', hrun⟩ := h log
  exact ⟨log', hrun.mapError⟩

theorem Yields.unique {p : Program S η ε α} {o o' : Outcome η ε α} {log log' : List (Event S)}
    (h : p.Yields answer o) (run : p.Runs (replying answer) log o' log') : o' = o := by
  obtain ⟨_, hrun⟩ := h log
  exact (hrun.unique run).1

end Yields

/-- A run of one kernel is a run of any kernel that can answer as it does. -/
theorem Runs.map {L : Kernel S τ} {f : σ → τ}
    (hcall : ∀ s c r t, K s c r t → L (f s) c r (f t)) {p : Program S η ε α} {s t : σ}
    {o : Outcome η ε α} (run : p.Runs K s o t) : p.Runs L (f s) o (f t) := by
  induction run with
  | stop => exact .stop _ _
  | ask answer _ ih => exact .ask (hcall _ _ _ _ answer) ih
  | again _ _ ihFirst ihRest => exact .again ihFirst ihRest
  | leave _ _ ihFirst ihRest => exact .leave ihFirst ihRest
  | loopError _ ih => exact .loopError ih
  | loopHalted _ ih => exact .loopHalted ih

/-- The kernels need only agree on the calls that the program makes. -/
theorem Within.runs_map {calls : S.Call → Prop} {halts : η → Prop} {L : Kernel S τ} {f : σ → τ}
    (hcall : ∀ s c r t, calls c → K s c r t → L (f s) c r (f t)) {p : Program S η ε α}
    (hp : p.Within calls halts) {s t : σ} {o : Outcome η ε α} (run : p.Runs K s o t) :
    p.Runs L (f s) o (f t) := by
  induction run with
  | stop => exact .stop _ _
  | ask answer _ ih => exact .ask (hcall _ _ _ _ hp.1 answer) (ih (hp.2 _))
  | again _ _ ihFirst ihRest => exact .again (ihFirst (hp.1 _)) (ihRest hp)
  | leave _ _ ihFirst ihRest => exact .leave (ihFirst (hp.1 _)) (ihRest (hp.2 _))
  | loopError _ ih => exact .loopError (ih (hp.1 _))
  | loopHalted _ ih => exact .loopHalted (ih (hp.1 _))

theorem Issues.map {L : Kernel S τ} {f : σ → τ}
    (hcall : ∀ s c r t, K s c r t → L (f s) c r (f t)) {p : Program S η ε α} {s t : σ}
    {c : S.Call} (issue : p.Issues K s c t) : p.Issues L (f s) c (f t) := by
  induction issue with
  | here => exact .here _
  | later answer _ ih => exact .later (hcall _ _ _ _ answer) ih
  | body _ ih => exact .body ih
  | again first _ ih => exact .again (first.map hcall) ih
  | leave first _ ih => exact .leave (first.map hcall) ih

theorem Issues.invariant {I : σ → Prop} (hcall : ∀ s c r t, K s c r t → I s → I t)
    {p : Program S η ε α} {s t : σ} {c : S.Call} (issue : p.Issues K s c t) (h : I s) : I t := by
  induction issue with
  | here => exact h
  | later answer _ ih => exact ih (hcall _ _ _ _ answer h)
  | body _ ih => exact ih h
  | again first _ ih => exact ih (first.invariant hcall h)
  | leave first _ ih => exact ih (first.invariant hcall h)

section Simulation

variable {L : Kernel S τ} {R : σ → τ → Prop} {G : σ → S.Call → Prop} {G' : τ → S.Call → Prop}

end Simulation

theorem exists_runs_forEach {ι : Type} {body : ι → Program S η ε Unit}
    (hbody : ∀ x s, ∃ t, (body x).Runs K s (.value ()) t) (xs : List ι) (s : σ) :
    ∃ t, (forEach body xs).Runs K s (.value ()) t := by
  induction xs generalizing s with
  | nil => exact ⟨s, .stop _ _⟩
  | cons x xs ih =>
      obtain ⟨t, hfirst⟩ := hbody x s
      obtain ⟨u, hrest⟩ := ih t
      exact ⟨u, hfirst.bind hrest⟩

end Program

end Cntr.CallTree
