import Cntr.CallsMade
import Cntr.ForwardedOutput

/-!
The parent from the moment at which it waits for its child: the rounds of the
loop, its end, and how a stop of the child is answered.
-/

namespace Cntr.WaitedChild

open Cntr.ByteText
open Cntr.CallTree
open Cntr.SystemCalls
open Cntr.CallsMade
open Cntr.ForwardedOutput (forward_wp Returns.not_halted)
open Cntr.PtySession

/-- The rounds after which the parent waits again. -/
inductive WaitRound where
  | nothing
  | interrupted
  | stopped (sig : Signal) (raised : Raised) (resumed : Except Errno Unit)

def stopReport (childPid : Pid) (sig : Signal) : Event linux :=
  ⟨.waitpid childPid true, .ok (some (.stopped sig))⟩

def WaitRound.log (childPid : Pid) : WaitRound → Log
  | .nothing => [⟨.waitpid childPid true, .ok none⟩]
  | .interrupted => [⟨.waitpid childPid true, .error .intr⟩]
  | .stopped sig raised resumed =>
      [stopReport childPid sig, ⟨.raise .stop, raised⟩, ⟨.kill childPid .cont, resumed⟩]

def waited (childPid : Pid) (rounds : List WaitRound) : Log :=
  rounds.flatMap (WaitRound.log childPid)

/-- The last calls of the parent and what it ends with. -/
inductive Ended (childPid : Pid) : Outcome Halt PtyError Empty → Log → Prop where
  | exited (code : UInt8) :
      Ended childPid (.halted (.exited code.toNat))
        [⟨.waitpid childPid true, .ok (some (.exited code))⟩]
  | died {sig : Signal} (named : Signal.fromNamedRaw sig.raw = some sig) :
      Ended childPid (.halted (.signaled sig))
        [⟨.waitpid childPid true, .ok (some (.signaled sig))⟩, ⟨.raise sig, .died⟩]
  | survived {sig : Signal} (named : Signal.fromNamedRaw sig.raw = some sig) :
      Ended childPid (.halted (.exited (128 + sig.raw)))
        [⟨.waitpid childPid true, .ok (some (.signaled sig))⟩, ⟨.raise sig, .survived⟩]
  | unnamed {sig : Signal} (unnamed : Signal.fromNamedRaw sig.raw = none) :
      Ended childPid (.halted (.exited (128 + sig.raw)))
        [⟨.waitpid childPid true, .ok (some (.signaled sig))⟩]
  | failed {e : Errno} (hard : e ≠ .intr) :
      Ended childPid (.error (.waitPid e)) [⟨.waitpid childPid true, .error e⟩]
  | unexpected :
      Ended childPid (.error (.unexpectedWaitEvent .continued))
        [⟨.waitpid childPid true, .ok (some .continued)⟩]

/-- What the parent does after a stop of its child. -/
def stopResponse (childPid : Pid) : List Syscall :=
  [.raise .stop, .kill childPid .cont, .waitpid childPid true]

/-- At the call `c`, the calls after every reported stop are the response to it,
as far as they are made. -/
def StopsAnswered (childPid : Pid) (log : Log) (c : Syscall) : Prop :=
  ∀ pre sig post, log = pre ++ stopReport childPid sig :: post →
    post.map Sigma.fst ++ [c] <+: stopResponse childPid ∨
      stopResponse childPid <+: post.map Sigma.fst ++ [c]

/-- The response to every reported stop is complete. -/
def StopsDone (childPid : Pid) (log : Log) : Prop :=
  ∀ pre sig post, log = pre ++ stopReport childPid sig :: post →
    stopResponse childPid <+: post.map Sigma.fst

theorem fromNamedRaw_eq {sig signal : Signal} (h : Signal.fromNamedRaw sig.raw = some signal) :
    signal = sig := by
  rw [Signal.fromNamedRaw] at h
  split at h
  · cases h
    rfl
  · cases h

section Responses

variable {childPid : Pid}

theorem waited_head (rounds : List WaitRound) {next : List Syscall}
    (hnext : [.waitpid childPid true] <+: next) :
    [.waitpid childPid true] <+: (waited childPid rounds).map Sigma.fst ++ next := by
  cases rounds with
  | nil => exact hnext
  | cons round rounds =>
      have hround : ∃ r rest, round.log childPid = ⟨.waitpid childPid true, r⟩ :: rest := by
        cases round with
        | nothing => exact ⟨_, _, rfl⟩
        | interrupted => exact ⟨_, _, rfl⟩
        | stopped sig raised resumed => exact ⟨_, _, rfl⟩
      obtain ⟨r, rest, hrest⟩ := hround
      simp [waited, hrest]

/-- In the rounds of the loop, every stop is answered when the parent waits next. -/
theorem waited_answered (rounds : List WaitRound) {next : List Syscall}
    (hnext : [.waitpid childPid true] <+: next) {pre post : Log} {sig : Signal}
    (h : waited childPid rounds = pre ++ stopReport childPid sig :: post) :
    stopResponse childPid <+: post.map Sigma.fst ++ next := by
  induction rounds generalizing pre with
  | nil => simp [waited] at h
  | cons round rounds ih =>
      rw [waited, List.flatMap_cons] at h
      have hsingle : ∀ ev, round.log childPid = [ev] → (∀ sig, ev ≠ stopReport childPid sig) →
          stopResponse childPid <+: post.map Sigma.fst ++ next := by
        intro ev hev hne
        rw [hev, List.singleton_append] at h
        cases pre with
        | nil => exact absurd (List.cons.inj h).1 (hne sig)
        | cons ev' pre => exact ih (List.cons.inj h).2
      cases round with
      | nothing => exact hsingle _ rfl fun sig heq => (by cases heq)
      | interrupted => exact hsingle _ rfl fun sig heq => (by cases heq)
      | stopped sig' raised resumed =>
          rw [WaitRound.log] at h
          cases pre with
          | nil =>
              obtain ⟨-, rfl⟩ := List.cons.inj h
              have hhead := waited_head rounds hnext
              simpa [stopResponse, waited] using hhead
          | cons ev₁ pre =>
              obtain ⟨-, h⟩ := List.cons.inj h
              cases pre with
              | nil => cases (List.cons.inj h).1
              | cons ev₂ pre =>
                  obtain ⟨-, h⟩ := List.cons.inj h
                  cases pre with
                  | nil => cases (List.cons.inj h).1
                  | cons ev₃ pre => exact ih (List.cons.inj h).2

theorem stop_cases {before rounds last pre post : Log} {sig : Signal}
    (hbefore : ∀ sig, stopReport childPid sig ∉ before)
    (h : before ++ (rounds ++ last) = pre ++ stopReport childPid sig :: post) :
    (∃ pre' post', rounds = pre' ++ stopReport childPid sig :: post' ∧ post = post' ++ last) ∨
      ∃ pre', last = pre' ++ stopReport childPid sig :: post := by
  have hsplit : ∃ pre', rounds ++ last = pre' ++ stopReport childPid sig :: post := by
    rcases List.append_eq_append_iff.mp h with ⟨gap, -, hrest⟩ | ⟨gap, hpre, hrest⟩
    · exact ⟨gap, hrest⟩
    · cases gap with
      | nil => exact ⟨[], hrest.symm⟩
      | cons ev gap =>
          obtain ⟨rfl, -⟩ := List.cons.inj hrest
          exact absurd (by simp [hpre]) (hbefore sig)
  obtain ⟨pre', h⟩ := hsplit
  rcases List.append_eq_append_iff.mp h with ⟨gap, -, hrest⟩ | ⟨gap, hrounds, hrest⟩
  · exact .inr ⟨gap, hrest⟩
  · cases gap with
    | nil => exact .inr ⟨[], hrest.symm⟩
    | cons ev gap =>
        obtain ⟨rfl, hpost⟩ := List.cons.inj hrest
        exact .inl ⟨pre', gap, hrounds, hpost⟩

theorem stopsAnswered_of {before last : Log} {c : Syscall} (rounds : List WaitRound)
    (hbefore : ∀ sig, stopReport childPid sig ∉ before)
    (hfirst : [.waitpid childPid true] <+: last.map Sigma.fst ++ [c])
    (hlast : ∀ pre sig post, last = pre ++ stopReport childPid sig :: post →
      post.map Sigma.fst ++ [c] <+: stopResponse childPid) :
    StopsAnswered childPid (before ++ (waited childPid rounds ++ last)) c := by
  intro pre sig post h
  rcases stop_cases hbefore h with ⟨pre', post', hrounds, rfl⟩ | ⟨pre', hpre⟩
  · right
    rw [List.map_append, List.append_assoc]
    exact waited_answered rounds hfirst hrounds
  · exact .inl (hlast pre' sig post hpre)

theorem stopsDone_of {before last : Log} {o : Outcome Halt PtyError Empty}
    (rounds : List WaitRound) (hbefore : ∀ sig, stopReport childPid sig ∉ before)
    (hended : Ended childPid o last) :
    StopsDone childPid (before ++ (waited childPid rounds ++ last)) := by
  have hnone : ∀ pre sig post, last ≠ pre ++ stopReport childPid sig :: post := by
    intro pre sig post h
    have hmem : stopReport childPid sig ∈ last := by simp [h]
    cases hended <;> simp [stopReport] at hmem
  have hfirst : [.waitpid childPid true] <+: last.map Sigma.fst := by
    cases hended <;> simp
  intro pre sig post h
  rcases stop_cases hbefore h with ⟨pre', post', hrounds, rfl⟩ | ⟨pre', hpre⟩
  · rw [List.map_append]
    exact waited_answered rounds hfirst hrounds
  · exact absurd hpre (hnone _ _ _)

theorem stopsDone_of_unreported {log : Log} (h : ∀ sig, stopReport childPid sig ∉ log) :
    StopsDone childPid log := by
  intro pre sig post hlog
  exact absurd (by simp [hlog]) (h sig)

theorem StopsDone.append {log seg : Log} (h : StopsDone childPid log)
    (hseg : ∀ sig, stopReport childPid sig ∉ seg) : StopsDone childPid (log ++ seg) := by
  intro pre sig post hlog
  rcases List.append_eq_append_iff.mp hlog with ⟨gap, hpre, hrest⟩ | ⟨gap, hpre, hrest⟩
  · exact absurd (by simp [hrest]) (hseg sig)
  · cases gap with
    | nil =>
        rw [List.nil_append] at hrest
        exact absurd (by simp [← hrest]) (hseg sig)
    | cons ev gap =>
        obtain ⟨rfl, hpost⟩ := List.cons.inj hrest
        replace hpost : post = gap ++ seg := hpost
        rw [hpost, List.map_append]
        exact (h pre sig gap hpre).trans (List.prefix_append _ _)

theorem StopsDone.answered {log : Log} (h : StopsDone childPid log) (c : Syscall) :
    StopsAnswered childPid log c := by
  intro pre sig post hlog
  exact .inr ((h pre sig post hlog).trans (List.prefix_append _ _))

end Responses

def AtWait (childPid : Pid) (before log : Log) : Prop :=
  ∃ rounds, log = before ++ waited childPid rounds

def WaitedSince (childPid : Pid) (before : Log) (o : Outcome Halt PtyError Empty)
    (log : Log) : Prop :=
  ∃ rounds last, log = before ++ (waited childPid rounds ++ last) ∧ Ended childPid o last

def AfterRound (childPid : Pid) (before : Log) :
    Outcome Halt PtyError (Unit ⊕ Empty) → Log → Prop
  | .value _, log => AtWait childPid before log
  | .error e, log => WaitedSince childPid before (.error e) log
  | .halted h, log => WaitedSince childPid before (.halted h) log

section Waiting

variable {childPid : Pid} {before : Log} {rounds : List WaitRound}

theorem atWait_snoc (round : WaitRound) :
    AtWait childPid before (before ++ (waited childPid rounds ++ round.log childPid)) := by
  refine ⟨rounds ++ [round], ?_⟩
  simp [waited]

theorem ne_of_not_stopped {status : WaitStatus} {pre post : Log} {sig : Signal}
    (hne : ∀ sig, status ≠ .stopped sig) :
    [(⟨.waitpid childPid true, .ok (some status)⟩ : Event linux)] ≠
      pre ++ stopReport childPid sig :: post := by
  intro h
  have hmem : stopReport childPid sig ∈
      [(⟨.waitpid childPid true, .ok (some status)⟩ : Event linux)] := by simp [h]
  have heq := List.mem_singleton.mp hmem
  cases heq
  exact hne sig rfl

theorem handleStatus_wp (hbefore : ∀ sig, stopReport childPid sig ∉ before)
    (status : WaitStatus) :
    (handleStatus childPid status).wp (tracing linux) (StopsAnswered childPid)
      (AfterRound childPid before)
      (before ++ (waited childPid rounds ++
        [⟨.waitpid childPid true, .ok (some status)⟩])) := by
  cases status with
  | exited code => exact ⟨rounds, _, rfl, .exited code⟩
  | signaled sig =>
      have hsignal : handleStatus childPid (.signaled sig) =
          (raiseNamed sig.raw).bind fun _ => .halt (.exited (128 + sig.raw)) := rfl
      rw [hsignal, raiseNamed]
      cases hnamed : Signal.fromNamedRaw sig.raw with
      | none => exact ⟨rounds, _, rfl, .unnamed hnamed⟩
      | some signal =>
          obtain rfl := fromNamedRaw_eq hnamed
          refine ⟨stopsAnswered_of rounds hbefore (by simp) fun pre sig post h => ?_, ?_⟩
          · exact absurd h (ne_of_not_stopped fun sig heq => (by cases heq))
          · rintro (_ | _) _ rfl
            · exact ⟨rounds, _, by simp, .died hnamed⟩
            · exact ⟨rounds, _, by simp, .survived hnamed⟩
  | stopped sig =>
      have hstop : handleStatus childPid (.stopped sig) =
          (sys (.raise .stop)).bind fun _ => (sys (.kill childPid .cont)).bind fun _ =>
            .done (.inl ()) := rfl
      rw [hstop, Program.wp_call_tracing]
      refine ⟨stopsAnswered_of rounds hbefore (by simp) fun pre sig' post h => ?_,
        fun raised => ?_⟩
      · cases pre with
        | nil =>
            obtain ⟨-, rfl⟩ := List.cons.inj h
            simp [stopResponse]
        | cons ev pre => simp at h
      rw [Program.wp_call_tracing]
      simp only [List.append_assoc]
      refine ⟨stopsAnswered_of rounds hbefore (by simp) fun pre sig' post h => ?_,
        fun resumed => ?_⟩
      · cases pre with
        | nil =>
            obtain ⟨-, rfl⟩ := List.cons.inj h
            simp [stopResponse]
        | cons ev pre =>
            obtain ⟨-, h⟩ := List.cons.inj h
            cases pre with
            | nil => cases (List.cons.inj h).1
            | cons ev pre => simp at h
      exact atWait_snoc (.stopped sig raised resumed)
  | continued => exact ⟨rounds, _, rfl, .unexpected⟩

/-- The parent waits until the child has ended, and answers every stop. -/
theorem waitForChild_wp (hbefore : ∀ sig, stopReport childPid sig ∉ before) :
    (waitForChild childPid).wp (tracing linux) (StopsAnswered childPid)
      (WaitedSince childPid before) before := by
  refine ⟨fun _ => AtWait childPid before, ⟨[], by simp [waited]⟩, ?_⟩
  rintro _ _ ⟨rounds, rfl⟩
  have hround : (waitRound childPid).wp (tracing linux) (StopsAnswered childPid)
      (AfterRound childPid before) (before ++ waited childPid rounds) := by
    rw [waitRound, Program.bind_eq, Program.wp_call_tracing]
    have hanswered : StopsAnswered childPid (before ++ (waited childPid rounds ++ []))
        (.waitpid childPid true) := stopsAnswered_of rounds hbefore (by simp) (by simp)
    rw [List.append_nil] at hanswered
    refine ⟨hanswered, ?_⟩
    simp only [List.append_assoc]
    rintro (e | _ | status)
    · by_cases he : e = .intr
      · subst he
        exact atWait_snoc .interrupted
      · simp only [he, if_false]
        exact ⟨rounds, _, rfl, .failed he⟩
    · exact atWait_snoc .nothing
    · exact handleStatus_wp hbefore status
  refine Program.wp_post hround fun o log' ho => ?_
  rcases o with (_ | never) | e | h
  · exact ho
  · exact nomatch never
  · exact ho
  · exact ho

end Waiting

end Cntr.WaitedChild
