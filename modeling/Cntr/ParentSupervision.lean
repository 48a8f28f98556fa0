import Cntr.WaitedChild

namespace Cntr.ParentSupervision

open Cntr.ByteText
open Cntr.CallTree
open Cntr.SystemCalls
open Cntr.AttachChild (AttachError)
open Cntr.CallsMade
open Cntr.ExecCommand (ExecError)
open Cntr.ForwardedOutput (forward_wp Returns.not_halted)
open Cntr.PtySession
open Cntr.ReadySocket
open Cntr.WaitedChild

/-- The calls that the parent makes before it waits for the child. -/
def Attends : Syscall → Prop
  | .dropSocket _ | .recvmsg _ => True
  | c => Forwards c

theorem attends_of_forwards {c : Syscall} (h : Forwards c) : Attends c := by
  cases c <;> trivial

/-- The parent made the calls `seg` and then waited for the child. -/
structure Supervised (childPid : Pid) (before seg : Log) (o : Outcome Halt PtyError Empty)
    (log : Log) : Prop where
  attends : ∀ ev ∈ seg, Attends ev.1
  waited : WaitedSince childPid (before ++ seg) o log

inductive AttachEnded (childPid : Pid) (before : Log) :
    Outcome Halt AttachError Empty → Log → Prop where
  | receiveFailed {seg : Log} {e : Errno} (attends : ∀ ev ∈ seg, Attends ev.1)
      (hard : ¬(e = .again ∨ e = .intr)) (failed : ⟨.recvmsg 1, .error e⟩ ∈ seg)
      (unreceived : ∀ message, ⟨.recvmsg 1, .ok message⟩ ∉ seg) :
      AttachEnded childPid before (.error (.ipc (.receive e))) (before ++ seg)
  | notReady {seg : Log} {message : Bytes × List Fd} (attends : ∀ ev ∈ seg, Attends ev.1)
      (only : ∀ message', ⟨.recvmsg 1, .ok message'⟩ ∈ seg ↔ message' = message)
      (other : message.1.head? ≠ some 82) :
      AttachEnded childPid before (.error .childNotReady) (before ++ seg)
  | supervised {seg log : Log} {message : Bytes × List Fd}
      {o : Outcome Halt PtyError Empty} (received : ⟨.recvmsg 1, .ok message⟩ ∈ seg)
      (ready : message.1.head? = some 82) (waited : Supervised childPid before seg o log) :
      AttachEnded childPid before (o.mapError .pty) log

inductive ExecEnded (childPid : Pid) (before : Log) :
    Outcome Halt ExecError Empty → Log → Prop where
  | supervised {seg log : Log} {o : Outcome Halt PtyError Empty}
      (waited : Supervised childPid before seg o log) :
      ExecEnded childPid before (o.mapError .pty) log

section Parent

variable {childPid : Pid} {before : Log}

theorem unreported_append (hbefore : ∀ sig, stopReport childPid sig ∉ before) {seg : Log}
    (hseg : ∀ ev ∈ seg, Attends ev.1) : ∀ sig, stopReport childPid sig ∉ before ++ seg := by
  intro sig hmem
  rcases List.mem_append.mp hmem with hmem | hmem
  · exact hbefore sig hmem
  · exact hseg _ hmem

theorem stopsAnswered_of_unreported (hbefore : ∀ sig, stopReport childPid sig ∉ before)
    (c : Syscall) : StopsAnswered childPid before c := by
  intro pre sig post h
  exact absurd (by simp [h]) (hbefore sig)

theorem forwards_snoc {P : Syscall → Prop} {seg : Log} {ev : Event linux}
    (hseg : ∀ ev ∈ seg, P ev.1) (hev : P ev.1) : ∀ ev' ∈ seg ++ [ev], P ev'.1 := by
  intro ev' hmem
  rcases List.mem_append.mp hmem with hmem | hmem
  · exact hseg ev' hmem
  · rw [List.mem_singleton.mp hmem]
    exact hev

theorem forward_returns (hbefore : ∀ sig, stopReport childPid sig ∉ before) (pty : Fd) :
    (forward pty).wp (tracing linux) (StopsAnswered childPid)
      (fun o log => (∃ seg, log = before ++ seg ∧ ∀ ev ∈ seg, Attends ev.1) ∧
        ∀ h, o ≠ .halted h) before := by
  have hframe : (forward pty).wp (tracing linux) (StopsAnswered childPid)
      (fun o log => ∃ seg, log = before ++ seg ∧ (∀ ev ∈ seg, Forwards ev.1) ∧
        ∀ h, o = .halted h → True) before := by
    refine (forward_forwards trivial pty).wp_log (fun _ _ _ _ answer => answer) ?_
    intro seg c hseg _
    exact stopsAnswered_of_unreported
      (unreported_append hbefore fun ev hev => attends_of_forwards (hseg ev hev)) c
  have hreturns := Program.wp_after before (forward_wp pty)
  rw [List.append_nil] at hreturns
  have hboth := Program.wp_and hframe (Program.wp_mono (fun _ _ _ => trivial) _
    (fun _ _ h => h) hreturns)
  refine Program.wp_post hboth fun o log ho => ?_
  obtain ⟨⟨seg, hlog, hseg, -⟩, seg', -, hreturned⟩ := ho
  exact ⟨⟨seg, hlog, fun ev hev => attends_of_forwards (hseg ev hev)⟩, hreturned.not_halted⟩

theorem waitForChild_supervised (hbefore : ∀ sig, stopReport childPid sig ∉ before) {seg : Log}
    (hseg : ∀ ev ∈ seg, Attends ev.1) :
    (waitForChild childPid).wp (tracing linux) (StopsAnswered childPid)
      (Supervised childPid before seg) (before ++ seg) :=
  Program.wp_post (waitForChild_wp (unreported_append hbefore hseg)) fun _ _ ho => ⟨hseg, ho⟩

theorem forwardPtyAndWait_supervised (hbefore : ∀ sig, stopReport childPid sig ∉ before)
    {seg : Log} (hseg : ∀ ev ∈ seg, Attends ev.1) (pty : Fd) :
    (forwardPtyAndWait pty childPid).wp (tracing linux) (StopsAnswered childPid)
      (fun o log => ∃ seg', Supervised childPid before (seg ++ seg') o log) (before ++ seg) := by
  rw [forwardPtyAndWait, Program.bind_eq, Program.wp_bind, Program.wp_attempt]
  refine Program.wp_post (forward_returns (unreported_append hbefore hseg) pty) fun o log ho => ?_
  obtain ⟨⟨seg', rfl, hseg'⟩, hreturns⟩ := ho
  have hwait : (waitForChild childPid).wp (tracing linux) (StopsAnswered childPid)
      (fun o log => ∃ seg', Supervised childPid before (seg ++ seg') o log)
      (before ++ seg ++ seg') := by
    rw [List.append_assoc]
    refine Program.wp_post (waitForChild_supervised hbefore fun ev hev => ?_)
      fun o log ho => ⟨seg', ho⟩
    rcases List.mem_append.mp hev with hev | hev
    · exact hseg ev hev
    · exact hseg' ev hev
  cases o with
  | value _ => exact hwait
  | error e => exact hwait
  | halted h => exact absurd rfl (hreturns h)

theorem receive_wp (hbefore : ∀ sig, stopReport childPid sig ∉ before) {seg : Log}
    (hseg : ∀ ev ∈ seg, Attends ev.1) (hnone : ∀ message, ⟨.recvmsg 1, .ok message⟩ ∉ seg)
    {Q : Outcome Halt IpcError (Bytes × List Fd) → Log → Prop}
    (hreceived : ∀ seg message, (∀ ev ∈ seg, Attends ev.1) →
      (∀ message', ⟨.recvmsg 1, .ok message'⟩ ∈ seg ↔ message' = message) →
      Q (.value message) (before ++ seg))
    (hfailed : ∀ seg e, (∀ ev ∈ seg, Attends ev.1) → ¬(e = Errno.again ∨ e = .intr) →
      ⟨.recvmsg 1, .error e⟩ ∈ seg → (∀ message, ⟨.recvmsg 1, .ok message⟩ ∉ seg) →
      Q (.error (.receive e)) (before ++ seg)) :
    (receive 1).wp (tracing linux) (StopsAnswered childPid) Q (before ++ seg) := by
  refine ⟨fun _ log => ∃ seg, log = before ++ seg ∧ (∀ ev ∈ seg, Attends ev.1) ∧
    ∀ message, ⟨.recvmsg 1, .ok message⟩ ∉ seg, ⟨seg, rfl, hseg, hnone⟩, ?_⟩
  rintro _ _ ⟨seg, rfl, hseg, hnone⟩
  rw [receiveRound, Program.bind_eq, Program.wp_call_tracing]
  refine ⟨stopsAnswered_of_unreported (unreported_append hbefore hseg) _, fun r => ?_⟩
  have hsnoc : ∀ ev ∈ seg ++ [⟨.recvmsg 1, r⟩], Attends ev.1 := forwards_snoc hseg trivial
  rw [List.append_assoc]
  cases r with
  | ok message =>
      apply hreceived _ message hsnoc
      intro message'
      simp [hnone]
  | error e =>
      have hnone' : ∀ message, ⟨.recvmsg 1, .ok message⟩ ∉ seg ++ [⟨.recvmsg 1, .error e⟩] := by
        intro message
        simp [hnone]
      by_cases he : e = .again ∨ e = .intr
      · simp only [he, if_true]
        exact ⟨_, rfl, hsnoc, hnone'⟩
      · simp only [he, if_false]
        exact hfailed _ e hsnoc he (by simp) hnone'

theorem attachParentBranch_wp (hbefore : ∀ sig, stopReport childPid sig ∉ before) :
    (AttachParent.parentBranch childPid).wp (tracing linux) (StopsAnswered childPid)
      (AttachEnded childPid before) before := by
  rw [AttachParent.parentBranch, Program.bind_eq, Program.wp_call_tracing]
  refine ⟨stopsAnswered_of_unreported hbefore _, fun _ => ?_⟩
  rw [AttachParent.run, Program.bind_eq, Program.wp_bind, Program.wp_mapError]
  have hdrop : ∀ ev ∈ [(⟨.dropSocket .child, ()⟩ : Event linux)], Attends ev.1 := by
    intro ev hev
    rw [List.mem_singleton.mp hev]
    trivial
  refine receive_wp hbefore hdrop (by simp) ?_ ?_
  · intro seg message hseg honly
    have hreceived := (honly message).mpr rfl
    rw [Outcome.mapError, Outcome.andThen_value, AttachParent.manageChild]
    by_cases hready : message.1.head? = some 82
    · rw [if_neg (not_not_intro hready)]
      cases message.2 with
      | nil =>
          rw [Program.wp_mapError]
          exact Program.wp_post (waitForChild_supervised hbefore hseg)
            fun _ _ ho => .supervised hreceived hready ho
      | cons ptyFd _ =>
          rw [Program.wp_mapError]
          refine Program.wp_post (forwardPtyAndWait_supervised hbefore hseg ptyFd) fun _ _ ho => ?_
          obtain ⟨seg', hwaited⟩ := ho
          exact .supervised (List.mem_append_left _ hreceived) hready hwaited
    · rw [if_pos hready]
      exact .notReady hseg honly hready
  · intro seg e hseg hhard hfailed hnone
    exact .receiveFailed hseg hhard hfailed hnone

theorem execParentBranch_wp (hbefore : ∀ sig, stopReport childPid sig ∉ before)
    (ptyMaster : Option Fd) :
    (ExecCommand.parentBranch ptyMaster childPid).wp (tracing linux) (StopsAnswered childPid)
      (ExecEnded childPid before) before := by
  have hnone : ∀ ev ∈ ([] : Log), Attends ev.1 := fun ev hev => by cases hev
  cases ptyMaster with
  | none =>
      have hwait := waitForChild_supervised hbefore hnone
      rw [List.append_nil] at hwait
      rw [ExecCommand.parentBranch, Program.wp_mapError]
      exact Program.wp_post hwait fun _ _ ho => .supervised ho
  | some pty =>
      have hwait := forwardPtyAndWait_supervised hbefore hnone pty
      rw [List.append_nil] at hwait
      rw [ExecCommand.parentBranch, Program.wp_mapError]
      refine Program.wp_post hwait fun _ _ ho => ?_
      obtain ⟨seg', hwaited⟩ := ho
      exact .supervised hwaited

end Parent

end Cntr.ParentSupervision
