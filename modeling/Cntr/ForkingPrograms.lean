import Cntr.CallTreeFrames
import Mathlib.Logic.Relation

/-!
Processes that all run one program, from a first one by calls that make two
processes of one. A process is known by the calls it has made; a new one shares
those of its parent up to the call that made it.
-/

namespace Cntr.ForkingPrograms

open Cntr.CallTree

variable {S : Signature} {η ε α σ μ : Type}

inductive Side where
  | parent
  | child
  deriving DecidableEq

/-- The answers that tell a process on which side of a fork it is, and the answer
that the child gets where the parent gets `r`. -/
structure Forking (S : Signature) where
  side : (c : S.Call) → S.Answer c → Option Side
  childAnswer : (c : S.Call) → S.Answer c → S.Answer c
  side_childAnswer : ∀ c r, side c r = some .parent → side c (childAnswer c r) = some .child

namespace Forking

variable (F : Forking S)

/-- The processes that a call makes of one with the given log. -/
def born (log : List (Event S)) (c : S.Call) (r : S.Answer c) : List (List (Event S)) :=
  if F.side c r = some .parent then [log ++ [⟨c, F.childAnswer c r⟩]] else []

/-- Two logs are the same up to a fork, at which they took different sides. -/
def Diverge (log log' : List (Event S)) : Prop :=
  ∃ before c r r' after after', log = before ++ ⟨c, r⟩ :: after ∧
    log' = before ++ ⟨c, r'⟩ :: after' ∧ F.side c r = some .parent ∧ F.side c r' = some .child

def Diverging (log log' : List (Event S)) : Prop := F.Diverge log log' ∨ F.Diverge log' log

variable {F}

theorem Diverge.append {log log' : List (Event S)} (h : F.Diverge log log')
    (more more' : List (Event S)) : F.Diverge (log ++ more) (log' ++ more') := by
  obtain ⟨before, c, r, r', after, after', rfl, rfl, hparent, hchild⟩ := h
  exact ⟨before, c, r, r', after ++ more, after' ++ more', by simp, by simp, hparent, hchild⟩

theorem Diverging.symm {log log' : List (Event S)} (h : F.Diverging log log') :
    F.Diverging log' log := Or.symm h

theorem Diverging.append {log log' : List (Event S)} (h : F.Diverging log log')
    (more more' : List (Event S)) : F.Diverging (log ++ more) (log' ++ more') := by
  rcases h with h | h
  · exact .inl (h.append more more')
  · exact .inr (h.append more' more)

/-- Whatever is told of the events, two such logs agree up to what is told of the
two sides of a fork. -/
theorem Diverge.filterMap {log log' : List (Event S)} (h : F.Diverge log log')
    {f : Event S → Option μ} {p q : μ}
    (hparent : ∀ c r, F.side c r = some .parent → f ⟨c, r⟩ = some p)
    (hchild : ∀ c r, F.side c r = some .child → f ⟨c, r⟩ = some q) :
    ∃ before after after', log.filterMap f = before ++ p :: after ∧
      log'.filterMap f = before ++ q :: after' := by
  obtain ⟨before, c, r, r', after, after', rfl, rfl, hr, hr'⟩ := h
  refine ⟨before.filterMap f, after.filterMap f, after'.filterMap f, ?_, ?_⟩
  · rw [List.filterMap_append, List.filterMap_cons_some (hparent c r hr)]
  · rw [List.filterMap_append, List.filterMap_cons_some (hchild c r' hr')]

theorem mem_born {log born : List (Event S)} {c : S.Call} {r : S.Answer c}
    (h : born ∈ F.born log c r) :
    F.side c r = some .parent ∧ born = log ++ [⟨c, F.childAnswer c r⟩] := by
  rw [Forking.born] at h
  split at h
  · next hside => exact ⟨hside, List.mem_singleton.mp h⟩
  · cases h

end Forking

/-- The logs of all processes there have been, and what the processes share. -/
structure System (S : Signature) (σ : Type) where
  processes : List (List (Event S))
  shared : σ

section Step

variable (F : Forking S) (prog : Program S η ε α)
  (effect : List (Event S) → Event S → σ → σ → Prop)

/-- Some process makes its next call. What the call does to the shared state may
depend on all that the process has done. -/
inductive Step : System S σ → System S σ → Prop where
  | call {before after : List (List (Event S))} {log : List (Event S)} {c : S.Call}
      {r : S.Answer c} {s t : σ} (issue : prog.Issues (tracing S) [] c log)
      (first : F.side c r ≠ some .child) (happens : effect log ⟨c, r⟩ s t) :
      Step ⟨before ++ log :: after, s⟩
        ⟨before ++ (log ++ [⟨c, r⟩]) :: (after ++ F.born log c r), t⟩

/-- The systems that one process that has made no call yet can lead to. -/
def Reachable (init : σ) (w : System S σ) : Prop :=
  Relation.ReflTransGen (Step F prog effect) ⟨[[]], init⟩ w

end Step

/-- An element of two lists put together is in the first or in the second. -/
theorem append_eq_append_cons {x : μ} {first second before after : List μ}
    (h : first ++ second = before ++ x :: after) :
    (∃ rest, first = before ++ x :: rest) ∨
      ∃ rest, before = first ++ rest ∧ second = rest ++ x :: after := by
  rcases List.append_eq_append_iff.mp h with ⟨rest, rfl, rfl⟩ | ⟨rest, rfl, hrest⟩
  · exact .inr ⟨rest, rfl, rfl⟩
  · cases rest with
    | nil => exact .inr ⟨[], by simp, hrest.symm⟩
    | cons y rest =>
        obtain ⟨rfl, -⟩ := List.cons.inj hrest
        exact .inl ⟨rest, rfl⟩

section Reachable

variable {F : Forking S} {prog : Program S η ε α}
  {effect : List (Event S) → Event S → σ → σ → Prop} {init : σ} {w w' : System S σ}

/-- What each call preserves, of the process that makes it and of the shared state,
holds of all processes and of the shared state. -/
theorem Reachable.invariant {P : List (Event S) → Prop} {I : σ → Prop}
    (reachable : Reachable F prog effect init w)
    (hissue : ∀ c log r s t, prog.Issues (tracing S) [] c log → effect log ⟨c, r⟩ s t →
      P log → P (log ++ [⟨c, r⟩]) ∧ ∀ born ∈ F.born log c r, P born)
    (hshared : ∀ c log r s t, prog.Issues (tracing S) [] c log → effect log ⟨c, r⟩ s t →
      P log → I s → I t)
    (hstart : P []) (hinit : I init) : (∀ log ∈ w.processes, P log) ∧ I w.shared := by
  induction reachable with
  | refl =>
      refine ⟨fun log hmem => ?_, hinit⟩
      rw [List.mem_singleton.mp hmem]
      exact hstart
  | tail _ step ih =>
      obtain ⟨hprocesses, hold⟩ := ih
      cases step with
      | @call before after log c r s t issue first happens =>
          have hlog : P log := hprocesses log (by simp)
          obtain ⟨hnext, hborn⟩ := hissue c log r s t issue happens hlog
          refine ⟨fun log' hmem => ?_, hshared c log r s t issue happens hlog hold⟩
          rcases List.mem_append.mp hmem with hmem | hmem
          · exact hprocesses log' (List.mem_append_left _ hmem)
          · rcases List.mem_cons.mp hmem with rfl | hmem
            · exact hnext
            · rcases List.mem_append.mp hmem with hmem | hmem
              · exact hprocesses log' (by simp [hmem])
              · exact hborn log' hmem

/-- What the next call of a process preserves holds of every process. -/
theorem Reachable.forall_processes {P : List (Event S) → Prop}
    (reachable : Reachable F prog effect init w)
    (hissue : ∀ c log r, prog.Issues (tracing S) [] c log → P log → P (log ++ [⟨c, r⟩]))
    (h : P []) : ∀ log ∈ w.processes, P log := by
  refine (reachable.invariant (I := fun _ => True) (fun c log r s t issue _ hlog => ?_)
    (fun _ _ _ _ _ _ _ _ _ => trivial) h trivial).1
  refine ⟨hissue c log r issue hlog, fun born hmem => ?_⟩
  obtain ⟨-, rfl⟩ := Forking.mem_born hmem
  exact hissue c log _ issue hlog

theorem Step.diverging (step : Step F prog effect w w')
    (h : w.processes.Pairwise F.Diverging) : w'.processes.Pairwise F.Diverging := by
  cases step with
  | @call before after log c r s t issue first happens =>
      obtain ⟨hbefore, hcons, hbeforeCons⟩ := List.pairwise_append.mp h
      obtain ⟨hlog, hafter⟩ := List.pairwise_cons.mp hcons
      have hold : ∀ other, other ∈ before ∨ other ∈ after → F.Diverging other log := by
        rintro other (hmem | hmem)
        · exact hbeforeCons other hmem log (by simp)
        · exact (hlog other hmem).symm
      have hborn : ∀ born ∈ F.born log c r, ∀ other, other ∈ before ∨ other ∈ after →
          F.Diverging other born := by
        intro born hmem other hother
        obtain ⟨-, rfl⟩ := Forking.mem_born hmem
        simpa using (hold other hother).append [] [(⟨c, F.childAnswer c r⟩ : Event S)]
      have hsplit : ∀ born ∈ F.born log c r, F.Diverging (log ++ [⟨c, r⟩]) born := by
        intro born hmem
        obtain ⟨hside, rfl⟩ := Forking.mem_born hmem
        exact .inl ⟨log, c, r, _, [], [], rfl, rfl, hside, F.side_childAnswer c r hside⟩
      have hnext : ∀ other, other ∈ before ∨ other ∈ after →
          F.Diverging other (log ++ [⟨c, r⟩]) := by
        intro other hother
        simpa using (hold other hother).append [] [(⟨c, r⟩ : Event S)]
      have hfew : (F.born log c r).Pairwise F.Diverging := by
        rw [Forking.born]
        split
        · exact List.pairwise_singleton _ _
        · exact .nil
      refine List.pairwise_append.mpr ⟨hbefore, List.pairwise_cons.mpr ⟨?_, ?_⟩, ?_⟩
      · intro other hmem
        rcases List.mem_append.mp hmem with hmem | hmem
        · exact (hnext other (.inr hmem)).symm
        · exact hsplit other hmem
      · refine List.pairwise_append.mpr ⟨hafter, hfew, fun other hother born hmem => ?_⟩
        exact hborn born hmem other (.inr hother)
      · intro other hother next hmem
        rcases List.mem_cons.mp hmem with rfl | hmem
        · exact hnext other (.inl hother)
        · rcases List.mem_append.mp hmem with hmem | hmem
          · exact hbeforeCons other hother next (by simp [hmem])
          · exact hborn next hmem other (.inl hother)

/-- No two processes have the same past. -/
theorem Reachable.diverging (reachable : Reachable F prog effect init w) :
    w.processes.Pairwise F.Diverging := by
  induction reachable with
  | refl => exact List.pairwise_singleton _ _
  | tail _ step ih => exact step.diverging ih

/-- A process goes on from what it has done. -/
theorem Step.extends (step : Step F prog effect w w') {log : List (Event S)}
    (hmem : log ∈ w.processes) : ∃ log' ∈ w'.processes, log <+: log' := by
  cases step with
  | @call before after log₀ c r s t issue first happens =>
      rcases List.mem_append.mp hmem with hmem | hmem
      · exact ⟨log, List.mem_append_left _ hmem, List.prefix_refl log⟩
      · rcases List.mem_cons.mp hmem with rfl | hmem
        · exact ⟨log ++ [⟨c, r⟩], by simp, List.prefix_append _ _⟩
        · exact ⟨log, by simp [hmem], List.prefix_refl log⟩

/-- If what is told of a process is never told of two diverging ones, then it is
told of one process only. -/
theorem Reachable.nodup {ρ : Type} (reachable : Reachable F prog effect init w)
    (f : List (Event S) → ρ) (P : List (Event S) → Prop)
    (hP : ∀ log ∈ w.processes, P log)
    (hne : ∀ log log', P log → P log' → F.Diverge log log' → f log ≠ f log') :
    (w.processes.map f).Nodup := by
  refine List.pairwise_map.mpr (reachable.diverging.imp_of_mem ?_)
  intro log log' hmem hmem' hdiverging
  rcases hdiverging with h | h
  · exact hne log log' (hP log hmem) (hP log' hmem') h
  · exact (hne log' log (hP log' hmem') (hP log hmem) h).symm

end Reachable

section Advance

/-- A call that was made in a run was made when the calls before it had been. -/
theorem issues_of_runs {p : Program S η ε α} {log log' : List (Event S)} {o : Outcome η ε α}
    (run : p.Runs (tracing S) log o log') {c : S.Call} {r : S.Answer c}
    (before after : List (Event S)) (hlog : log' = log ++ before ++ ⟨c, r⟩ :: after) :
    p.Issues (tracing S) log c (log ++ before) := by
  induction run generalizing before after with
  | stop o log =>
      have hlength := congrArg List.length hlog
      simp only [List.length_append, List.length_cons] at hlength
      omega
  | @ask _ c' k r' o log mid log' answer rest ih =>
      have hmid : mid = log ++ [⟨c', r'⟩] := answer
      subst hmid
      obtain ⟨seg, rfl⟩ := rest.log_prefix
      rw [List.append_assoc, List.append_assoc] at hlog
      have hseg := List.append_cancel_left hlog
      cases before with
      | nil =>
          obtain ⟨heq, -⟩ := List.cons.inj hseg
          obtain rfl := congrArg Sigma.fst heq
          rw [List.append_nil]
          exact .here log
      | cons ev before =>
          obtain ⟨rfl, htail⟩ := List.cons.inj hseg
          have hrest : seg = before ++ ⟨c, r⟩ :: after := htail
          have issue := ih before after (by rw [hrest, ← List.append_assoc])
          rw [List.append_assoc] at issue
          exact .later answer issue
  | again first rest ihFirst ihRest =>
      obtain ⟨seg, rfl⟩ := first.log_prefix
      obtain ⟨seg', rfl⟩ := rest.log_prefix
      rw [List.append_assoc, List.append_assoc] at hlog
      rcases append_eq_append_cons (List.append_cancel_left hlog) with
        ⟨rest, rfl⟩ | ⟨before, rfl, rfl⟩
      · exact .body (ihFirst _ _ (by rw [List.append_assoc]))
      · rw [← List.append_assoc]
        exact .again first (ihRest _ after (by rw [← List.append_assoc]))
  | leave first rest ihFirst ihRest =>
      obtain ⟨seg, rfl⟩ := first.log_prefix
      obtain ⟨seg', rfl⟩ := rest.log_prefix
      rw [List.append_assoc, List.append_assoc] at hlog
      rcases append_eq_append_cons (List.append_cancel_left hlog) with
        ⟨rest, rfl⟩ | ⟨before, rfl, rfl⟩
      · exact .body (ihFirst _ _ (by rw [List.append_assoc]))
      · rw [← List.append_assoc]
        exact .leave first (ihRest _ after (by rw [← List.append_assoc]))
  | loopError first ih => exact .body (ih _ _ hlog)
  | loopHalted first ih => exact .body (ih _ _ hlog)

/-- The processes that one makes on the way from a log to a longer one. -/
def Forking.bornOn (F : Forking S) : List (Event S) → List (Event S) → List (List (Event S))
  | _, [] => []
  | log, ⟨c, r⟩ :: seg => F.born log c r ++ F.bornOn (log ++ [⟨c, r⟩]) seg

variable {F : Forking S} {prog : Program S η ε α}
  {effect : List (Event S) → Event S → σ → σ → Prop} {init : σ}

/-- A process of a reachable system can go on as in any run of the program that
goes on from what it has done, if the shared state may stay as it is. -/
theorem Reachable.advance {before after : List (List (Event S))} {log seg : List (Event S)}
    {s : σ} (reachable : Reachable F prog effect init ⟨before ++ log :: after, s⟩)
    (hstays : ∀ log ev, ev ∈ seg → effect log ev s s)
    {o : Outcome η ε α} {more : List (Event S)}
    (run : prog.Runs (tracing S) [] o (log ++ seg ++ more))
    (hfirst : ∀ ev ∈ seg, F.side ev.1 ev.2 ≠ some .child) :
    Reachable F prog effect init
      ⟨before ++ (log ++ seg) :: (after ++ F.bornOn log seg), s⟩ := by
  induction seg generalizing log after with
  | nil =>
      rw [Forking.bornOn, List.append_nil, List.append_nil]
      exact reachable
  | cons ev seg ih =>
      obtain ⟨c, r⟩ := ev
      obtain ⟨hev, hseg⟩ := List.forall_mem_cons.mp hfirst
      have issue : prog.Issues (tracing S) [] c log :=
        issues_of_runs run (r := r) log (seg ++ more) (by simp)
      have hmoved := reachable.tail (.call issue hev (hstays log ⟨c, r⟩ List.mem_cons_self))
      have hnext := ih hmoved (fun log ev hmem => hstays log ev (List.mem_cons_of_mem _ hmem))
        (by simpa using run) hseg
      simpa [Forking.bornOn] using hnext

end Advance

end Cntr.ForkingPrograms
