import Cntr.CallTreeOutcomes
import Cntr.ForkedProcesses
import Cntr.ParentSupervision

/-!
The parent beside its child comes to an end, unless it is interrupted, stopped or
kept forwarding for ever.
-/

namespace Cntr.ParentProgress

open Cntr.CallTree
open Cntr.SystemCalls
open Cntr.CallsMade
open Cntr.FilePairBuffer
open Cntr.ForkedProcesses
open Cntr.IdmapHelperProcess
open Cntr.ParentSupervision
open Cntr.PtySession
open Cntr.ReadySocket
open Cntr.ShovelLoop
open Cntr.WaitedChild

/-- The answers after which a loop of the parent goes on. -/
def Repeats : Event linux → Prop
  | ⟨.recvmsg _, .error e⟩ => e = .again ∨ e = .intr
  | ⟨.poll _ _, .error e⟩ => e = .intr
  | ⟨.poll _ _, .ok _⟩ => True
  | ⟨.waitpid _ _, .error e⟩ => e = .intr
  | ⟨.waitpid _ _, .ok none⟩ => True
  | ⟨.waitpid _ _, .ok (some (.stopped _))⟩ => True
  | _ => False

/-- The errors that neither the socket nor the child that is there gives rise to. -/
def Refuses (childPid : Pid) : Event linux → Prop
  | ⟨.recvmsg _, .error e⟩ => ¬(e = .again ∨ e = .intr)
  | ⟨.waitpid pid untraced, .error e⟩ => pid = childPid ∧ untraced = true ∧ e ≠ .intr
  | _ => False

/-- The kernel beside the child, with the number of repetitions that are left. -/
def settling {ε : Type} (childPid : Pid) (child : Sys ε Empty) : Kernel linux (World × Nat) :=
  fun s c r s' => beside childPid child s.1 c r s'.1 ∧ ¬Refuses childPid ⟨c, r⟩ ∧
    (Repeats ⟨c, r⟩ → s'.2 < s.2) ∧ s'.2 ≤ s.2

section Termination

variable {ε ε' : Type} {childPid : Pid} {child : Sys ε' Empty} {s : World × Nat}

/-- Whatever a program does, repetitions do not come back. -/
theorem wp_left {α : Type} (p : Sys ε α) {n : Nat} (h : s.2 ≤ n) :
    p.wp (settling childPid child) (fun _ _ => True) (fun _ s' => s'.2 ≤ n) s := by
  refine Program.wp_of_runs (fun o s' run => ?_) fun _ _ _ => trivial
  exact run.invariant (fun _ _ _ _ step hle => step.2.2.2.trans hle) h

theorem receive_terminates (length : Nat) :
    (receive length).Terminates (settling childPid child) s := by
  refine .iterate (fun _ _ => True) (fun _ s => s.2) (fun _ s _ => ⟨?_, ?_⟩) trivial
  · rintro (e | message) _ -
    · show Program.Terminates _ (if e = .again ∨ e = .intr then _ else _) _
      split <;> trivial
    · trivial
  · refine ⟨trivial, ?_⟩
    rintro (e | message) s' answer
    · show Program.wp _ _ (if e = .again ∨ e = .intr then _ else _) _ _
      split
      · next he => exact ⟨trivial, answer.2.2.1 he⟩
      · trivial
    · trivial

theorem write_terminates {K : Kernel linux (World × Nat)} (pair : FilePair) :
    (pair.write (ε := ε)).Terminates K s := by
  rw [FilePair.write]
  cases pair.buf.slice pair.writeOffset pair.readOffset with
  | none => trivial
  | some slice =>
      rintro (e | written) _ -
      · trivial
      · trivial

theorem transfer_terminates {K : Kernel linux (World × Nat)} (pair : FilePair) :
    (transfer (ε := ε) pair).Terminates K s := by
  rw [transfer]
  cases pair.state with
  | write => exact write_terminates pair
  | read =>
      rintro (e | data) _ -
      · trivial
      · exact write_terminates _

theorem serve_terminates {K : Kernel linux (World × Nat)} (pairs : List FilePair)
    (ready : List Bool) (s : World × Nat) : (serve (ε := ε) pairs ready).Terminates K s := by
  induction pairs generalizing ready s with
  | nil => trivial
  | cons pair pairs ih =>
      cases ready with
      | nil => trivial
      | cons first rest =>
          have hrest : ∀ (pair : FilePair) s, ((serve (ε := ε) pairs rest).bind fun x =>
              .done (x.1, pair :: x.2)).Terminates K s := fun pair s =>
            (ih rest s).bind fun _ _ => trivial
          cases first with
          | false => exact hrest pair s
          | true =>
              refine (transfer_terminates pair).bind ?_
              rintro ⟨more, pair⟩ s
              cases more with
              | false => trivial
              | true => exact hrest pair s

theorem initialWinsize_terminates {K : Kernel linux (World × Nat)} (resize : Option Fd) :
    (initialWinsize (ε := ε) resize).Terminates K s := by
  cases resize with
  | none => trivial
  | some pty =>
      rintro (e | ws) _ -
      · exact fun _ _ _ => trivial
      · exact fun _ _ _ => trivial

theorem checkWinsize_terminates {K : Kernel linux (World × Nat)} (resize : Option Fd)
    (last : Option Winsize) : (checkWinsize (ε := ε) resize last).Terminates K s := by
  cases resize with
  | none => trivial
  | some pty =>
      cases last with
      | none => trivial
      | some last =>
          have hget : (getWinsize (ε := ε)).Terminates K s := by
            rintro (e | ws) _ -
            · trivial
            · trivial
          refine hget.bind fun current s => ?_
          split
          · exact fun _ _ _ => trivial
          · trivial

/-- Every round of `shovel` asks what is ready. -/
theorem shovel_terminates (pairs : List FilePair) (resize : Option Fd) :
    (shovel (ε := ε) pairs resize).Terminates (settling childPid child) s := by
  refine (initialWinsize_terminates resize).bind fun last s => ?_
  refine .iterate (fun _ _ => True) (fun _ s => s.2) (fun st s _ => ⟨?_, ?_⟩) trivial
  · rintro (e | revents) s' -
    · show Program.Terminates _ (if e = .intr then _ else _) _
      split <;> trivial
    · refine (checkWinsize_terminates _ _).bind fun last s => ?_
      refine (serve_terminates _ _ s).bind ?_
      rintro ⟨more, pairs⟩ s
      cases more <;> trivial
  · refine ⟨trivial, ?_⟩
    rintro (e | revents) s' answer
    · show Program.wp _ _ (if e = .intr then _ else _) _ _
      split
      · next he => exact ⟨trivial, answer.2.2.1 he⟩
      · trivial
    · have hless : s'.2 < s.2 := answer.2.2.1 trivial
      refine Program.wp_post (wp_left _ le_rfl) fun o s'' hle => ?_
      rcases o with (st' | _) | e | h
      · exact ⟨trivial, hle.trans_lt hless⟩
      · trivial
      · trivial
      · trivial

theorem forward_terminates (pty : Fd) :
    (forward pty).Terminates (settling childPid child) s := by
  have hdup : ∀ what fd s, (dupFd what fd).Terminates (settling childPid child) s := by
    rintro what fd s (e | fd') _ -
    · trivial
    · trivial
  have hfiles : ∀ isTty s, (forwardFiles pty isTty).Terminates (settling childPid child) s :=
    fun isTty s => (hdup _ _ s).bind fun _ s => (hdup _ _ s).bind fun _ s =>
      (hdup _ _ s).bind fun _ _ => shovel_terminates _ _
  have hnew : ∀ isTty s, (newRawTty isTty).Terminates (settling childPid child) s := by
    intro isTty s
    cases isTty with
    | false => trivial
    | true =>
        rintro (e | attr) _ -
        · trivial
        · rintro (e | _) _ -
          · trivial
          · trivial
  have hdrop : ∀ rawTty s, (RawTty.drop rawTty).Terminates (settling childPid child) s := by
    intro rawTty s
    cases rawTty with
    | none => trivial
    | some attr => exact fun _ _ _ => trivial
  intro isTty s _
  refine (hnew isTty s).bind fun rawTty s => (hfiles isTty s).attempt.bind fun res s => ?_
  exact (hdrop rawTty s).bind fun _ _ => (by cases res <;> trivial)

theorem handleStatus_terminates {K : Kernel linux (World × Nat)} (pid : Pid)
    (status : WaitStatus) : (handleStatus pid status).Terminates K s := by
  cases status with
  | exited code => trivial
  | signaled sig =>
      show Program.Terminates _ ((raiseNamed sig.raw).bind _) _
      rw [raiseNamed]
      cases Signal.fromNamedRaw sig.raw with
      | none => trivial
      | some signal =>
          rintro (_ | _) _ -
          · trivial
          · trivial
  | stopped sig => exact fun _ _ _ _ _ _ => trivial
  | continued => trivial

theorem waitForChild_terminates (pid : Pid) :
    (waitForChild pid).Terminates (settling childPid child) s := by
  refine .iterate (fun _ _ => True) (fun _ s => s.2) (fun _ s _ => ⟨?_, ?_⟩) trivial
  · rintro (e | _ | status) s' -
    · show Program.Terminates _ (if e = .intr then _ else _) _
      split <;> trivial
    · trivial
    · exact handleStatus_terminates pid status
  · refine ⟨trivial, ?_⟩
    rintro (e | _ | status) s' answer
    · show Program.wp _ _ (if e = .intr then _ else _) _ _
      split
      · next he => exact ⟨trivial, answer.2.2.1 he⟩
      · trivial
    · exact ⟨trivial, answer.2.2.1 trivial⟩
    · cases status with
      | stopped sig =>
          have hless : s'.2 < s.2 := answer.2.2.1 trivial
          refine Program.wp_post (wp_left _ le_rfl) fun o s'' hle => ?_
          rcases o with (_ | never) | e | h
          · exact ⟨trivial, hle.trans_lt hless⟩
          · exact nomatch never
          · trivial
          · trivial
      | signaled sig =>
          show Program.wp _ _ ((raiseNamed sig.raw).bind _) _ _
          rw [raiseNamed]
          cases Signal.fromNamedRaw sig.raw with
          | none => trivial
          | some signal =>
              refine ⟨trivial, ?_⟩
              rintro (_ | _) _ -
              · trivial
              · trivial
      | exited code => trivial
      | continued => trivial

theorem forwardPtyAndWait_terminates (pty : Fd) (pid : Pid) :
    (forwardPtyAndWait pty pid).Terminates (settling childPid child) s :=
  (forward_terminates pty).attempt.bind fun _ _ => waitForChild_terminates pid

end Termination

section Waiting

variable {childPid : Pid}

/-- No last status of the child has been reported. -/
def Unended (childPid : Pid) (log : Log) : Prop :=
  ∀ untraced status, Final status → ⟨.waitpid childPid untraced, .ok (some status)⟩ ∉ log

/-- The parent does not wait for a child that it has reaped. -/
def WaitsOnce (childPid : Pid) (log : Log) (c : Syscall) : Prop :=
  c = .waitpid childPid true → Unended childPid log

/-- The parent has closed the child's end of the socket before it receives. -/
def ReceivesClosed (log : Log) (c : Syscall) : Prop :=
  ∀ length, c = .recvmsg length → ⟨.dropSocket .child, ()⟩ ∈ log

theorem Unended.snoc {log : Log} (h : Unended childPid log) {ev : Event linux}
    (hev : ∀ untraced status, Final status →
      ev ≠ ⟨.waitpid childPid untraced, .ok (some status)⟩) :
    Unended childPid (log ++ [ev]) := by
  intro untraced status hfinal hmem
  rcases List.mem_append.mp hmem with hmem | hmem
  · exact h untraced status hfinal hmem
  · exact hev untraced status hfinal (List.mem_singleton.mp hmem).symm

theorem attends_once {ε α : Type} {halts : Halt → Prop} {p : Sys ε α}
    (hp : p.Within Attends halts) {log : Log} (h : Unended childPid log) :
    p.wp (tracing linux) (WaitsOnce childPid) (fun _ log' => Unended childPid log') log := by
  have hframe : p.wp (tracing linux) (WaitsOnce childPid)
      (fun o log' => Unended childPid log' ∧ ∀ h, o = .halted h → halts h) log := by
    refine hp.wp (G := WaitsOnce childPid) (I := Unended childPid) (fun _ _ hI _ _ => hI) ?_ h
    rintro log c r _ hI hc rfl
    refine hI.snoc fun untraced status _ heq => ?_
    cases heq
    exact hc
  exact Program.wp_post hframe fun _ _ ho => ho.1

theorem receive_attends {halts : Halt → Prop} (length : Nat) :
    (receive length).Within Attends halts := by
  refine ⟨fun _ => ⟨trivial, ?_⟩, fun _ => trivial⟩
  rintro (e | message)
  · show Program.Within _ _ (if e = .again ∨ e = .intr then _ else _)
    split <;> trivial
  · trivial

theorem waitForChild_once {log : Log} (h : Unended childPid log) :
    (waitForChild childPid).wp (tracing linux) (WaitsOnce childPid) (fun _ _ => True) log := by
  refine ⟨fun _ => Unended childPid, h, fun _ log hI => ⟨fun _ => hI, ?_⟩⟩
  rintro (e | _ | status) _ rfl
  · show Program.wp _ _ (if e = .intr then _ else _) _ _
    split
    · exact hI.snoc fun _ _ _ heq => (by cases heq)
    · trivial
  · exact hI.snoc fun _ _ _ heq => (by cases heq)
  · cases status with
    | exited code => trivial
    | signaled sig =>
        show Program.wp _ _ ((raiseNamed sig.raw).bind _) _ _
        rw [raiseNamed]
        cases Signal.fromNamedRaw sig.raw with
        | none => trivial
        | some signal =>
            refine ⟨fun heq => (by cases heq), ?_⟩
            rintro (_ | _) _ -
            · trivial
            · trivial
    | stopped sig =>
        refine ⟨fun heq => (by cases heq), ?_⟩
        rintro raised _ rfl
        refine ⟨fun heq => (by cases heq), ?_⟩
        rintro resumed _ rfl
        refine ((hI.snoc fun _ _ hfinal heq => ?_).snoc fun _ _ _ heq => (by cases heq)).snoc
          fun _ _ _ heq => (by cases heq)
        cases heq
        exact hfinal
    | continued => trivial

theorem forwardPtyAndWait_once {log : Log} (h : Unended childPid log) (pty : Fd) :
    (forwardPtyAndWait pty childPid).wp (tracing linux) (WaitsOnce childPid) (fun _ _ => True)
      log := by
  rw [forwardPtyAndWait, Program.bind_eq, Program.wp_bind, Program.wp_attempt]
  have hforward : (forward pty).Within Attends fun _ => True :=
    (forward_forwards trivial pty).mono (fun _ => attends_of_forwards) fun _ => id
  refine Program.wp_post (attends_once hforward h) fun o log ho => ?_
  cases o with
  | value _ => exact waitForChild_once ho
  | error e => exact waitForChild_once ho
  | halted h => trivial

theorem attachParentBranch_once :
    (AttachParent.parentBranch childPid).wp (tracing linux) (WaitsOnce childPid)
      (fun _ _ => True) [] := by
  have hnone : Unended childPid [] := fun _ _ _ => List.not_mem_nil
  refine ⟨fun heq => (by cases heq), fun _ log hlog => ?_⟩
  have hdropped : Unended childPid log := by
    rw [hlog]
    exact hnone.snoc fun _ _ _ heq => (by cases heq)
  show Program.wp _ _ (((receive 1).mapError _).bind _) _ _
  rw [Program.wp_bind, Program.wp_mapError]
  have hattends : (receive 1).Within Attends fun _ => True := receive_attends 1
  refine Program.wp_post (attends_once hattends hdropped) fun o log ho => ?_
  cases o with
  | error e => trivial
  | halted h => trivial
  | value message =>
      show (AttachParent.manageChild childPid message).wp _ _ _ _
      rw [AttachParent.manageChild]
      split
      · trivial
      · cases message.2 with
        | nil => exact (Program.wp_mapError _ _ _ _).mpr (waitForChild_once ho)
        | cons ptyFd _ =>
            exact (Program.wp_mapError _ _ _ _).mpr (forwardPtyAndWait_once ho ptyFd)

theorem execParentBranch_once (ptyMaster : Option Fd) :
    (ExecCommand.parentBranch ptyMaster childPid).wp (tracing linux) (WaitsOnce childPid)
      (fun _ _ => True) [] := by
  have hnone : Unended childPid [] := fun _ _ _ => List.not_mem_nil
  cases ptyMaster with
  | none => exact (Program.wp_mapError _ _ _ _).mpr (waitForChild_once hnone)
  | some pty => exact (Program.wp_mapError _ _ _ _).mpr (forwardPtyAndWait_once hnone pty)

end Waiting

section Answers

variable {ε : Type} {childPid : Pid} {child : Sys ε Empty} {w w' : World}

/-- A child that is reaped was reported to the parent. -/
def Reported (childPid : Pid) (w : World) : Prop :=
  ∀ status, w.life = .reaped status →
    ∃ untraced, ⟨.waitpid childPid untraced, .ok (some status)⟩ ∈ w.parentLog

theorem reported_childStep (step : ChildStep child w w') (h : Reported childPid w) :
    Reported childPid w' := by
  cases step with
  | call => exact h
  | execute => exact h
  | exit => exact fun status hlife => (by cases hlife)
  | command => exact fun status hlife => (by cases hlife)
  | killed => exact fun status hlife => (by cases hlife)

theorem reported_childSteps (steps : Relation.ReflTransGen (ChildStep child) w w')
    (h : Reported childPid w) : Reported childPid w' := by
  induction steps with
  | refl => exact h
  | tail _ step ih => exact reported_childStep step ih

theorem reported_beside {c : Syscall} {r : c.Answer} (step : beside childPid child w c r w')
    (h : Reported childPid w) : Reported childPid w' := by
  obtain ⟨w₁, w₂, steps, answer, rfl⟩ := step
  have h₁ : Reported childPid w₁ := reported_childSteps steps h
  have hsame : ∀ w₂ : World, w₂.life = w₁.life → w₂.parentLog = w₁.parentLog →
      Reported childPid { w₂ with parentLog := w₂.parentLog ++ [⟨c, r⟩] } := by
    intro w₂ hlife hlog status hreaped
    obtain ⟨untraced, hmem⟩ := h₁ status (hlife ▸ hreaped)
    exact ⟨untraced, List.mem_append_left _ (hlog ▸ hmem)⟩
  cases answer with
  | ended untraced dead =>
      intro status hreaped
      cases hreaped
      exact ⟨untraced, by simp⟩
  | _ => exact hsame _ rfl rfl

/-- Each call that the parent makes is answered after some steps of the child, and not
by an error or a repetition. -/
theorem exists_answer (hw : Consistent childPid w) (hreported : Reported childPid w) {c : Syscall}
    (hdropped : ∀ length, c = .recvmsg length → w.parentHoldsChildEnd = false)
    (honce : WaitsOnce childPid w.parentLog c) (n : Nat) :
    ∃ r s', settling childPid child (w, n) c r s' := by
  have hunrelated : Unrelated childPid c → ¬Refuses childPid ⟨c, c.refused⟩ →
      ¬Repeats ⟨c, c.refused⟩ → ∃ r s', settling childPid child (w, n) c r s' := by
    intro hother hrefuses hrepeats
    exact ⟨c.refused, (_, n), ⟨w, w, .refl, .other _ _ hother, rfl⟩, hrefuses,
      fun h => absurd h hrepeats, le_rfl⟩
  cases c with
  | recvmsg length =>
      have hheld := hdropped length rfl
      cases hqueue : w.queue with
      | cons message rest =>
          exact ⟨.ok (message.1.take length, message.2), (_, n),
            ⟨w, _, .refl, .message length hqueue rfl, rfl⟩, id, fun h => h.elim, le_rfl⟩
      | nil =>
          have hend : ∀ w', Relation.ReflTransGen (ChildStep child) w w' → w'.Closed →
              ∃ r s', settling childPid child (w, n) (.recvmsg length) r s' := by
            intro w' steps hclosed
            exact ⟨.ok ([], []), (_, n), ⟨w', _, steps, .endOfFile length hclosed, rfl⟩, id,
              fun h => h.elim, le_rfl⟩
          cases hlife : w.life with
          | alive =>
              exact hend _ (.single (.killed .kill hlife))
                ⟨hqueue, hheld, fun halive => (by cases halive)⟩
          | zombie status =>
              exact hend w .refl ⟨hqueue, hheld, fun halive => (by simp [hlife] at halive)⟩
          | reaped status =>
              exact hend w .refl ⟨hqueue, hheld, fun halive => (by simp [hlife] at halive)⟩
  | waitpid pid untraced =>
      by_cases hpid : pid = childPid
      · subst hpid
        cases untraced with
        | false =>
            refine ⟨.error .perm, (_, n), ⟨w, w, .refl, .waitError w false .perm, rfl⟩, ?_, ?_,
              le_rfl⟩
            · rintro ⟨-, h, -⟩
              cases h
            · intro h
              cases h
        | true =>
            cases hlife : w.life with
            | alive =>
                exact ⟨_, (_, n), ⟨_, _, .single (.killed .kill hlife), .ended true rfl, rfl⟩, id,
                  fun h => h.elim, le_rfl⟩
            | zombie status =>
                have hfinal := hw.final status (.inl hlife)
                refine ⟨_, (_, n), ⟨w, _, .refl, .ended true hlife, rfl⟩, id, ?_, le_rfl⟩
                cases status <;> first | exact hfinal.elim | exact fun h => h.elim
            | reaped status =>
                obtain ⟨untraced, hmem⟩ := hreported status hlife
                exact absurd hmem (honce rfl untraced status (hw.final status (.inr hlife)))
      · refine hunrelated hpid (fun h => hpid h.1) ?_
        intro h
        cases h
  | dropSocket side =>
      cases side with
      | child => exact ⟨(), (_, n), ⟨w, _, .refl, .closed w, rfl⟩, id, fun h => h.elim, le_rfl⟩
      | parent => exact hunrelated trivial id id
  | poll fds timeout =>
      refine hunrelated trivial id ?_
      intro h
      cases h
  | _ => exact hunrelated trivial id id

end Answers

end Cntr.ParentProgress
