import Cntr.WaitedChild

namespace Cntr.DrainedPty

open Cntr.ByteText
open Cntr.CallTree
open Cntr.SystemCalls
open Cntr.CallsMade
open Cntr.FilePairBuffer
open Cntr.ForwardedOutput
open Cntr.PtySession
open Cntr.ShovelLoop

def eio : IoError := .os ⟨5⟩

/-- The pair from stdin writes to the PTY master, and the pair to stdout reads from
it; that the slave side is closed is reported by `EIO`. -/
def SlaveClosed : Event linux → Prop
  | ⟨.read (.ofPair 1 _) _, .error e⟩ => e = eio
  | ⟨.write (.ofPair 0 _) _, .error e⟩ => e = eio
  | _ => False

def SetUpFailed : Event linux → Prop
  | ⟨.tcgetattr _, .error _⟩ => True
  | ⟨.tcsetattr _ false _, .error _⟩ => True
  | ⟨.dup _, .error _⟩ => True
  | _ => False

def ClosedReported (log : Log) : Prop := ∃ ev ∈ log, SlaveClosed ev

/-- The terminal could be set up, and of the calls on stdin, stdout, the PTY and
`poll` the first that fails reports that the slave side is closed. -/
def ClosedFirst (log : Log) : Prop :=
  (∀ ev ∈ log, ¬SetUpFailed ev) ∧
    ∀ pre ev rest, log = pre ++ ev :: rest → Calm pre → Failed ev → SlaveClosed ev

theorem SlaveClosed.failed {ev : Event linux} (h : SlaveClosed ev) : Failed ev := by
  unfold SlaveClosed at h
  split at h
  · trivial
  · trivial
  · exact h.elim

section Verdict

variable {log seg pre rest : Log} {ev : Event linux}

theorem not_setUpFailed_of_waits (h : Waits ev.1) : ¬SetUpFailed ev := by
  obtain ⟨c, r⟩ := ev
  cases c <;> first | exact h.elim | exact id

theorem aside_of_waits (h : Waits ev.1) : Aside ev := by
  obtain ⟨c, r⟩ := ev
  cases c <;> first | exact h.elim | exact ⟨fun _ => rfl, fun _ => rfl, fun _ => rfl, id⟩

theorem StoppedAt.append (h : StoppedAt log pre ev rest) (hseg : ∀ ev ∈ seg, Aside ev) :
    StoppedAt (log ++ seg) pre ev (rest ++ seg) where
  log_eq := by rw [h.log_eq, List.append_assoc, List.cons_append]
  calm := h.calm
  last := h.last
  aside := by
    intro ev' hmem
    rcases List.mem_append.mp hmem with hmem | hmem
    · exact h.aside ev' hmem
    · exact hseg ev' hmem

theorem verdict_of_stopped (hsetUp : ∀ ev ∈ log, ¬SetUpFailed ev)
    (h : StoppedAt log pre ev rest) : ClosedReported log ↔ ClosedFirst log := by
  constructor
  · rintro ⟨ev', hmem, hclosed⟩
    refine ⟨hsetUp, fun pre' ev₁ rest' hlog hcalm hfailed => ?_⟩
    obtain ⟨-, rfl⟩ := h.unique hlog hcalm hfailed
    rwa [h.failed_mem hmem hclosed.failed] at hclosed
  · rintro ⟨-, hfirst⟩
    have hclosed := hfirst pre ev rest h.log_eq h.calm h.last.failed
    exact ⟨ev, by simp [h.log_eq], hclosed⟩

theorem verdict_of_setUpFailed (hfailed : ∃ ev ∈ log, SetUpFailed ev)
    (hclosed : ∀ ev ∈ log, ¬SlaveClosed ev) : ClosedReported log ↔ ClosedFirst log := by
  constructor
  · rintro ⟨ev, hmem, h⟩
    exact absurd h (hclosed ev hmem)
  · rintro ⟨hsetUp, -⟩
    obtain ⟨ev, hmem, h⟩ := hfailed
    exact absurd h (hsetUp ev hmem)

end Verdict

/-- What a part of `forward` leaves: `P` when it has a value, and a failed set-up
before any use of the PTY when it has an error. -/
def SetUp {α : Type} (P : Log → Prop) : Outcome Halt PtyError α → Log → Prop
  | .value _, log => P log
  | .error _, log => (∃ ev ∈ log, SetUpFailed ev) ∧ ∀ ev ∈ log, ¬SlaveClosed ev
  | .halted _, _ => False

/-- No set-up has failed, and the PTY is not used yet. -/
def Fresh (log : Log) : Prop := ∀ ev ∈ log, ¬SetUpFailed ev ∧ ¬SlaveClosed ev

theorem Fresh.snoc {log : Log} {ev : Event linux} (h : Fresh log) (hsetUp : ¬SetUpFailed ev)
    (hclosed : ¬SlaveClosed ev) : Fresh (log ++ [ev]) := by
  intro ev' hmem
  rcases List.mem_append.mp hmem with hmem | hmem
  · exact h ev' hmem
  · rw [List.mem_singleton.mp hmem]
    exact ⟨hsetUp, hclosed⟩

theorem Fresh.failed {log : Log} {ev : Event linux} (h : Fresh log) (hsetUp : SetUpFailed ev)
    (hclosed : ¬SlaveClosed ev) :
    (∃ ev' ∈ log ++ [ev], SetUpFailed ev') ∧ ∀ ev' ∈ log ++ [ev], ¬SlaveClosed ev' := by
  refine ⟨⟨ev, by simp, hsetUp⟩, fun ev' hmem => ?_⟩
  rcases List.mem_append.mp hmem with hmem | hmem
  · exact (h ev' hmem).2
  · rw [List.mem_singleton.mp hmem]
    exact hclosed

theorem dupFd_setUp {log : Log} (h : Fresh log) (what : Bytes) (fd : Fd) :
    (dupFd what fd).wp (tracing linux) (fun _ _ => True) (SetUp Fresh) log := by
  rw [dupFd, Program.bind_eq, Program.wp_call_tracing]
  refine ⟨trivial, ?_⟩
  rintro (e | file)
  · exact h.failed trivial id
  · exact h.snoc id id

theorem newRawTty_setUp {log : Log} (h : Fresh log) (isTty : Bool) :
    (newRawTty isTty).wp (tracing linux) (fun _ _ => True) (SetUp Fresh) log := by
  cases isTty with
  | false => exact h
  | true =>
      simp only [newRawTty, RawTty.new, if_true, Program.bind_eq, Program.bind_assoc,
        Program.wp_call_tracing]
      refine ⟨trivial, ?_⟩
      rintro (e | attr)
      · exact h.failed trivial id
      · simp only [Program.ofExcept, Program.done_bind, Program.wp_call_tracing]
        refine ⟨trivial, ?_⟩
        have hget : Fresh (log ++ [⟨.tcgetattr stdin, .ok attr⟩]) := h.snoc id id
        rintro (e | _)
        · exact hget.failed trivial id
        · exact hget.snoc id id

def SetUpDone (log : Log) : Prop := ∀ ev ∈ log, ¬SetUpFailed ev

theorem shovel_setUp {log : Log} (h : Fresh log) (files : List (Fd × Fd)) (resize : Option Fd) :
    (shovel (newPairs 0 files) resize).wp (tracing linux) (fun _ _ => True) (SetUp SetUpDone)
      log := by
  have hwithin : (shovel (ε := PtyError) (newPairs 0 files) resize).Within Shovels
      fun _ => True := shovel_shovels trivial (newPairs 0 files) resize
  have hframe : (shovel (newPairs 0 files) resize).wp (tracing linux) (fun _ _ => True) _ log :=
    hwithin.wp_log (fun _ _ _ _ answer => answer) fun _ _ _ _ => trivial
  have hshovel : (shovel (ε := PtyError) (newPairs 0 files) resize).wp (tracing linux)
      ReadsDrained (Returned files.length) [] := shovel_wp fresh_nil
  have hreturns := Program.wp_after log hshovel
  rw [List.append_nil] at hreturns
  refine Program.wp_post
    (Program.wp_and hframe (Program.wp_mono (fun _ _ _ => trivial) _ (fun _ _ h => h) hreturns))
    fun o log' ho => ?_
  obtain ⟨⟨seg, rfl, hseg, -⟩, seg', -, rfl, -⟩ := ho
  intro ev hmem
  rcases List.mem_append.mp hmem with hmem | hmem
  · exact (h ev hmem).1
  · have hshovels := hseg ev hmem
    obtain ⟨c, r⟩ := ev
    cases c <;> first | exact hshovels.elim | exact id

theorem setUp_bind {α β : Type} {P P' : Log → Prop} {p : Sys PtyError α} {f : α → Sys PtyError β}
    {log : Log} (hp : p.wp (tracing linux) (fun _ _ => True) (SetUp P) log)
    (hf : ∀ a log', P log' → (f a).wp (tracing linux) (fun _ _ => True) (SetUp P') log') :
    (p.bind f).wp (tracing linux) (fun _ _ => True) (SetUp P') log := by
  refine Program.wp_seq hp fun o log' ho => ?_
  cases o with
  | value a => exact hf a log' ho
  | error e => exact ho
  | halted h => exact ho

theorem forwardFiles_setUp {log : Log} (h : Fresh log) (pty : Fd) (isTty : Bool) :
    (forwardFiles pty isTty).wp (tracing linux) (fun _ _ => True) (SetUp SetUpDone) log := by
  refine setUp_bind (dupFd_setUp h _ _) fun stdinFile log₁ h₁ => ?_
  refine setUp_bind (dupFd_setUp h₁ _ _) fun stdoutFile log₂ h₂ => ?_
  refine setUp_bind (dupFd_setUp h₂ _ _) fun ptyFile log₃ h₃ => ?_
  exact shovel_setUp h₃ _ _

theorem setUp_snoc {α : Type} {o : Outcome Halt PtyError α} {log : Log} {ev : Event linux}
    (h : SetUp SetUpDone o log) (hsetUp : ¬SetUpFailed ev) (hclosed : ¬SlaveClosed ev) :
    SetUp SetUpDone o (log ++ [ev]) := by
  cases o with
  | value a =>
      intro ev' hmem
      rcases List.mem_append.mp hmem with hmem | hmem
      · exact h ev' hmem
      · rwa [List.mem_singleton.mp hmem]
  | error e =>
      obtain ⟨⟨ev', hmem, hfailed⟩, hnone⟩ := h
      refine ⟨⟨ev', List.mem_append_left _ hmem, hfailed⟩, fun ev' hmem => ?_⟩
      rcases List.mem_append.mp hmem with hmem | hmem
      · exact hnone ev' hmem
      · rwa [List.mem_singleton.mp hmem]
  | halted e => exact h

theorem forward_setUp (pty : Fd) :
    (forward pty).wp (tracing linux) (fun _ _ => True) (SetUp SetUpDone) [] := by
  rw [forward, Program.bind_eq, Program.wp_call_tracing]
  refine ⟨trivial, fun isTty => ?_⟩
  have hfresh : Fresh ([] ++ [⟨.isatty stdin, isTty⟩]) :=
    Fresh.snoc (fun _ hmem => by cases hmem) id id
  refine setUp_bind (newRawTty_setUp hfresh isTty) fun rawTty log₁ h₁ => ?_
  rw [Program.bind_eq, Program.wp_bind, Program.wp_attempt]
  refine Program.wp_post (forwardFiles_setUp h₁ pty isTty) fun o log₂ ho => ?_
  have hdrop : ∀ (res : Except PtyError Unit) (o : Outcome Halt PtyError Unit),
      (Program.ofExcept id res : Sys PtyError Unit) = .stop o → SetUp SetUpDone o log₂ →
      ((RawTty.drop rawTty).bind fun _ => Program.ofExcept id res).wp (tracing linux)
        (fun _ _ => True) (SetUp SetUpDone) log₂ := by
    intro res o hres ho
    rw [hres]
    cases rawTty with
    | none => exact ho
    | some attr =>
        refine ⟨trivial, fun r log' hlog => ?_⟩
        rw [hlog]
        exact setUp_snoc ho id id
  cases o with
  | value _ => exact hdrop (.ok ()) _ rfl ho
  | error e => exact hdrop (.error e) _ rfl ho
  | halted h => exact ho.elim

/-- The parent waits only once the slave side is closed, just when the terminal can
be set up and the first call to fail reports that. -/
theorem forwardPtyAndWait_wp (pty : Fd) (childPid : Pid) :
    (forwardPtyAndWait pty childPid).wp (tracing linux)
      (fun log c => c = .waitpid childPid true → (ClosedReported log ↔ ClosedFirst log))
      (fun _ _ => True) [] := by
  have hwithin : (forward pty).Within Forwards fun _ => True := forward_forwards trivial pty
  have hframe : (forward pty).wp (tracing linux)
      (fun log c => c = .waitpid childPid true → (ClosedReported log ↔ ClosedFirst log))
      (fun o log => ∃ seg, log = [] ++ seg ∧ (∀ ev ∈ seg, Forwards ev.1) ∧
        ∀ h, o = .halted h → True) [] := by
    refine hwithin.wp_log (fun _ _ _ _ answer => answer) fun seg c _ hc heq => ?_
    rw [heq] at hc
    exact hc.elim
  have hends := Program.wp_and (Program.wp_and hframe (forward_setUp pty)) (forward_wp pty)
  rw [forwardPtyAndWait, Program.bind_eq, Program.wp_bind, Program.wp_attempt]
  refine Program.wp_post hends fun o log ho => ?_
  obtain ⟨⟨-, hsetUp⟩, hreturns⟩ := ho
  have hwait : (∀ seg, (∀ ev ∈ seg, Waits ev.1) →
        (ClosedReported (log ++ seg) ↔ ClosedFirst (log ++ seg))) →
      (waitForChild childPid).wp (tracing linux)
        (fun log c => c = .waitpid childPid true → (ClosedReported log ↔ ClosedFirst log))
        (fun _ _ => True) log := by
    intro hverdict
    exact Program.wp_post
      ((waitForChild_waits childPid).wp_log (fun _ _ _ _ answer => answer)
        fun seg _ hseg _ _ => hverdict seg hseg)
      fun _ _ _ => trivial
  cases o with
  | value _ =>
      obtain ⟨pre, ev, rest, hstopped⟩ := hreturns
      refine hwait fun seg hseg => ?_
      refine verdict_of_stopped (fun ev' hmem => ?_)
        (StoppedAt.append hstopped fun ev hmem => aside_of_waits (hseg ev hmem))
      rcases List.mem_append.mp hmem with hmem | hmem
      · exact hsetUp ev' hmem
      · exact not_setUpFailed_of_waits (hseg ev' hmem)
  | error e =>
      obtain ⟨⟨ev, hmem, hfailed⟩, hclosed⟩ := hsetUp
      refine hwait fun seg hseg => ?_
      refine verdict_of_setUpFailed ⟨ev, List.mem_append_left _ hmem, hfailed⟩ fun ev' hmem' => ?_
      rcases List.mem_append.mp hmem' with hmem' | hmem'
      · exact hclosed ev' hmem'
      · intro h
        exact (aside_of_waits (hseg ev' hmem')).2.2.2 h.failed
  | halted h => exact hsetUp.elim

theorem forwardPtyAndWait_closed_iff (pty : Fd) (childPid : Pid) (log : Log)
    (issue : (forwardPtyAndWait pty childPid).Issues (tracing linux) [] (.waitpid childPid true)
      log) : ClosedReported log ↔ ClosedFirst log :=
  issue.of_wp (forwardPtyAndWait_wp pty childPid) rfl

/-- The PTY has output, which stdout does not take at the moment. -/
def stdoutBlocks : (c : Syscall) → c.Answer
  | .poll fds _ => .ok ⟨fds.map fun fd => decide (fd.file = .ofPair 1 3), by simp⟩
  | .read _ size => if h : 2 ≤ size then .ok ⟨[104, 105], h⟩ else .error .invalidData
  | .write _ _ => .error .wouldBlock
  | .dup _ => .ok 3
  | c => c.refused

/-- After a run of `forward` the parent waits. -/
theorem wait_issued {pty : Fd} {childPid : Pid} {log : Log}
    (hrun : (forward pty).Runs (tracing linux) [] (.value ()) log) :
    (forwardPtyAndWait pty childPid).Issues (tracing linux) [] (.waitpid childPid true) log := by
  have hwp : (forwardPtyAndWait pty childPid).wp (tracing linux)
      (fun log c => (forwardPtyAndWait pty childPid).Issues (tracing linux) [] c log)
      (fun _ _ => True) [] := by
    apply Program.wp_of_runs
    · intro _ _ _
      trivial
    · intro c log issue
      exact issue
  rw [forwardPtyAndWait, Program.bind_eq, Program.wp_bind, Program.wp_attempt] at hwp
  obtain ⟨I, hinit, hbody⟩ := hrun.of_wp hwp
  exact (hbody _ _ hinit).1

/-- The parent waits for a child that still has the PTY. -/
theorem forwardPtyAndWait_abandons :
    ∃ log, (forwardPtyAndWait 5 somePid).Issues (tracing linux) [] (.waitpid somePid true) log ∧
      ¬ClosedReported log := by
  have hrun : ∃ log, (forward 5).Runs (tracing linux) [] (.value ()) log ∧
      log.getLast? = some ⟨.write (.ofPair 1 3) [104, 105], .error .wouldBlock⟩ :=
    ⟨_, .of_replay (fun _ => stdoutBlocks) 3 rfl, rfl⟩
  obtain ⟨log, hrun, hlast⟩ := hrun
  have hopen : ¬ClosedReported log := by
    obtain ⟨pre, ev, rest, hstopped⟩ := hrun.of_wp (forward_wp 5)
    have hev := hstopped.failed_mem (List.mem_of_getLast? hlast) trivial
    rintro ⟨ev', hmem, hclosed⟩
    rw [hstopped.failed_mem hmem hclosed.failed, ← hev] at hclosed
    exact hclosed
  exact ⟨log, wait_issued hrun, hopen⟩

def slaveCloses : (c : Syscall) → c.Answer
  | .poll fds _ => .ok ⟨fds.map fun fd => decide (fd.file = .ofPair 1 3), by simp⟩
  | .read _ _ => .error eio
  | .dup _ => .ok 3
  | c => c.refused

theorem forwardPtyAndWait_closed_slaveCloses :
    ∃ log, (forwardPtyAndWait 5 somePid).Issues (tracing linux) [] (.waitpid somePid true) log ∧
      ClosedReported log ∧ ClosedFirst log ∧
      log.getLast? = some ⟨.read (.ofPair 1 3) bufSize, .error eio⟩ := by
  have hrun : ∃ log, (forward 5).Runs (tracing linux) [] (.value ()) log ∧
      log.getLast? = some ⟨.read (.ofPair 1 3) bufSize, .error eio⟩ :=
    ⟨_, .of_replay (fun _ => slaveCloses) 3 rfl, rfl⟩
  obtain ⟨log, hrun, hlast⟩ := hrun
  have hclosed : ClosedReported log := ⟨_, List.mem_of_getLast? hlast, rfl⟩
  have issue : (forwardPtyAndWait 5 somePid).Issues (tracing linux) []
      (.waitpid somePid true) log := wait_issued hrun
  exact ⟨log, issue, hclosed, (forwardPtyAndWait_closed_iff 5 somePid log issue).mp hclosed, hlast⟩

end Cntr.DrainedPty
