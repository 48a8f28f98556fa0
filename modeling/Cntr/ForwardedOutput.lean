import Cntr.PtySession

namespace Cntr.ForwardedOutput

open Cntr.ByteText
open Cntr.CallTree
open Cntr.SystemCalls
open Cntr.FilePairBuffer
open Cntr.ShovelLoop
open Cntr.PtySession

/-- The position of the pair from the PTY to stdout. -/
def output : Nat := 1

def Transient (e : IoError) : Prop := e = .interrupted ∨ e = .wouldBlock

def StdoutFailed : Event linux → Prop
  | ⟨.write (.ofPair i _) _, .error e⟩ => i = output ∧ ¬Transient e
  | _ => False

def Delivered (log : Log) : Prop := accepted output log = returned output log

/-- What has to hold at the call that fails: it is a read from the PTY, or a write to stdout
that offered nothing or failed for good, or any other call after the last write to stdout
has taken all that it was offered. -/
def Harmless (log : Log) (ev : Event linux) : Prop :=
  match ev with
  | ⟨.write (.ofPair i _) bytes, .error e⟩ =>
      if i = output then bytes = [] ∨ ¬Transient e else leftOver output log = 0
  | ⟨.read (.ofPair i _) _, _⟩ => i = output ∨ leftOver output log = 0
  | _ => leftOver output log = 0

/-- A call that moves no byte to or from a pair and is no reason to stop. -/
def Aside (ev : Event linux) : Prop :=
  (∀ i, returnedBy i ev = []) ∧ (∀ i, acceptedBy i ev = []) ∧ (∀ i, leftBy i ev = none) ∧
    ¬Failed ev

/-- The log of `forward`: shovel stopped at `ev`, and then the terminal was
restored. -/
structure StoppedAt (log pre : Log) (ev : Event linux) (rest : Log) : Prop where
  log_eq : log = pre ++ ev :: rest
  calm : Calm pre
  last : LastCall 2 pre ev
  aside : ∀ ev ∈ rest, Aside ev

theorem idle_of_aside (log : Log) {rest : Log} (h : ∀ ev ∈ rest, Aside ev) :
    Idle log (log ++ rest) := by
  induction rest generalizing log with
  | nil =>
      rw [List.append_nil]
      exact .refl log
  | cons ev rest ih =>
      obtain ⟨hreturned, haccepted, hleft, hcalm⟩ := h ev (by simp)
      have hfirst := Idle.snoc log ev hreturned haccepted hleft hcalm
      have hrest := ih (log ++ [ev]) fun ev hev => h ev (List.mem_cons_of_mem _ hev)
      rw [List.append_assoc, List.singleton_append] at hrest
      exact hfirst.trans hrest

/-- `forward` may make a call aside of the pairs at any time. -/
theorem idle_call (log : Log) (ev : Event linux) (h : Aside ev) : Idle log (log ++ [ev]) :=
  .snoc log ev h.1 h.2.1 h.2.2.1 h.2.2.2

theorem dupFd_wp {what : Bytes} {fd : Fd} {Q : Outcome Halt PtyError Fd → Log → Prop}
    {log : Log} (h : ∀ file log', Idle log log' → Q (.value file) log')
    (hfail : ∀ e log', Idle log log' → Q (.error e) log') :
    (dupFd what fd).wp (tracing linux) (fun _ _ => True) Q log := by
  simp only [dupFd, Program.bind_eq, Program.wp_call_tracing]
  refine ⟨trivial, ?_⟩
  rintro (e | file)
  · exact hfail _ _ (idle_call _ _ ⟨fun _ => rfl, fun _ => rfl, fun _ => rfl, id⟩)
  · exact h _ _ (idle_call _ _ ⟨fun _ => rfl, fun _ => rfl, fun _ => rfl, id⟩)

theorem newRawTty_wp {isTty : Bool} {Q : Outcome Halt PtyError (Option Termios) → Log → Prop}
    {log : Log} (h : ∀ rawTty log', Idle log log' → Q (.value rawTty) log')
    (hfail : ∀ e log', Q (.error e) log') :
    (newRawTty isTty).wp (tracing linux) (fun _ _ => True) Q log := by
  cases isTty with
  | false => exact h _ _ (.refl log)
  | true =>
      simp only [newRawTty, RawTty.new, if_true, Program.bind_eq, Program.bind_assoc,
        Program.wp_call_tracing]
      refine ⟨trivial, ?_⟩
      rintro (e | attr)
      · exact hfail _ _
      · have hget := idle_call log ⟨.tcgetattr stdin, .ok attr⟩
          ⟨fun _ => rfl, fun _ => rfl, fun _ => rfl, id⟩
        simp only [Program.ofExcept, Program.done_bind, Program.wp_call_tracing]
        refine ⟨trivial, ?_⟩
        rintro (e | _)
        · exact hfail _ _
        · exact h _ _ (hget.trans (idle_call _ _ ⟨fun _ => rfl, fun _ => rfl, fun _ => rfl, id⟩))

def Returns (P : Log → Prop) : Outcome Halt PtyError Unit → Log → Prop
  | .value _, log => P log
  | .error _, _ => True
  | .halted _, _ => False

theorem Returns.not_halted {P : Log → Prop} {o : Outcome Halt PtyError Unit} {log : Log}
    (h : Returns P o log) (e : Halt) : o ≠ .halted e := by
  rintro rfl
  exact h

theorem forwardFiles_wp {pty : Fd} {isTty : Bool} {log : Log} (hidle : Idle [] log) :
    (forwardFiles pty isTty).wp (tracing linux) (fun _ _ => True) (Returns (Stopped 2)) log := by
  rw [forwardFiles, Program.bind_eq, Program.wp_bind]
  refine dupFd_wp (fun stdinFile log₁ h₁ => ?_) fun _ _ _ => trivial
  rw [Outcome.andThen_value, Program.bind_eq, Program.wp_bind]
  refine dupFd_wp (fun stdoutFile log₂ h₂ => ?_) fun _ _ _ => trivial
  rw [Outcome.andThen_value, Program.bind_eq, Program.wp_bind]
  refine dupFd_wp (fun ptyFile log₃ h₃ => ?_) fun _ _ _ => trivial
  rw [Outcome.andThen_value]
  have hfresh : Fresh log₃ := fresh_nil.of_idle (((hidle.trans h₁).trans h₂).trans h₃)
  refine Program.wp_mono (fun _ _ _ => trivial) _ (fun o log' ho => ?_) (shovel_wp hfresh)
  obtain ⟨rfl, hstopped⟩ := ho
  exact hstopped

/-- `forward` always returns to its caller, and when it has no error shovel stopped. -/
theorem forward_wp (pty : Fd) :
    (forward pty).wp (tracing linux) (fun _ _ => True)
      (Returns fun log => ∃ pre ev rest, StoppedAt log pre ev rest) [] := by
  rw [forward, Program.bind_eq, Program.wp_call_tracing]
  refine ⟨trivial, fun isTty => ?_⟩
  have hisatty := idle_call [] ⟨.isatty stdin, isTty⟩ ⟨fun _ => rfl, fun _ => rfl, fun _ => rfl, id⟩
  rw [Program.bind_eq, Program.wp_bind]
  refine newRawTty_wp (fun rawTty log₁ h₁ => ?_) fun _ _ => trivial
  rw [Outcome.andThen_value, Program.bind_eq, Program.wp_bind, Program.wp_attempt]
  refine Program.wp_mono (fun _ _ _ => trivial) _ (fun o log₂ ho => ?_)
    (forwardFiles_wp (hisatty.trans h₁))
  rcases o with _ | e | e
  · obtain ⟨pre, ev, hlog, hcalm, hlast⟩ := ho
    rw [Outcome.attempt, Outcome.andThen_value, Program.bind_eq, Program.wp_bind]
    cases rawTty with
    | none => exact ⟨pre, ev, [], hlog, hcalm, hlast, by simp⟩
    | some attr =>
        simp only [RawTty.drop, Program.bind_eq, Program.wp_call_tracing]
        refine ⟨trivial, fun r => ⟨pre, ev, [⟨.tcsetattr stdin true attr, r⟩], ?_, hcalm,
          hlast, ?_⟩⟩
        · rw [hlog, List.append_assoc]
          rfl
        · intro ev' hev
          rw [List.mem_singleton.mp hev]
          exact ⟨fun _ => rfl, fun _ => rfl, fun _ => rfl, id⟩
  · rw [Outcome.attempt, Outcome.andThen_value, Program.bind_eq, Program.wp_bind]
    cases rawTty with
    | none => trivial
    | some attr =>
        simp only [RawTty.drop, Program.bind_eq, Program.wp_call_tracing]
        exact ⟨trivial, fun _ => trivial⟩
  · exact ho.elim

theorem StoppedAt.failed_mem {log pre rest : Log} {ev ev' : Event linux}
    (h : StoppedAt log pre ev rest) (hmem : ev' ∈ log) (hfailed : Failed ev') : ev' = ev := by
  rw [h.log_eq] at hmem
  rcases List.mem_append.mp hmem with hmem | hmem
  · exact absurd hfailed (h.calm ev' hmem)
  · rcases List.mem_cons.mp hmem with rfl | hmem
    · rfl
    · exact absurd hfailed (h.aside ev' hmem).2.2.2

theorem StoppedAt.unique {log pre pre' rest rest' : Log} {ev ev' : Event linux}
    (h : StoppedAt log pre ev rest) (hlog : log = pre' ++ ev' :: rest') (hcalm : Calm pre')
    (hfailed : Failed ev') : pre' = pre ∧ ev' = ev := by
  have heq : pre ++ ev :: rest = pre' ++ ev' :: rest' := h.log_eq.symm.trans hlog
  rcases List.append_eq_append_iff.mp heq with ⟨gap, hpre, hrest⟩ | ⟨gap, hpre, hrest⟩
  · cases gap with
    | nil =>
        obtain ⟨rfl, -⟩ := List.cons.inj hrest
        exact ⟨by simpa using hpre, rfl⟩
    | cons ev₁ gap =>
        obtain ⟨rfl, -⟩ := List.cons.inj hrest
        exact absurd h.last.failed (hcalm ev (by simp [hpre]))
  · cases gap with
    | nil =>
        obtain ⟨rfl, -⟩ := List.cons.inj hrest
        exact ⟨by simpa using hpre.symm, rfl⟩
    | cons ev₁ gap =>
        obtain ⟨rfl, -⟩ := List.cons.inj hrest
        exact absurd hfailed (h.calm ev' (by simp [hpre]))

theorem StoppedAt.delivered_iff {log pre rest : Log} {ev : Event linux}
    (h : StoppedAt log pre ev rest) :
    Delivered log ↔ accepted output pre ++ acceptedBy output ev =
      returned output pre ++ returnedBy output ev := by
  have hidle : Idle (pre ++ [ev]) (pre ++ [ev] ++ rest) := idle_of_aside _ h.aside
  have hlog : log = pre ++ [ev] ++ rest := by
    rw [h.log_eq, List.append_assoc, List.singleton_append]
  obtain ⟨hreturned, haccepted⟩ := (hidle.1 output).traffic
  rw [Delivered, hlog, hreturned, haccepted]
  simp

theorem StdoutFailed.failed {ev : Event linux} (h : StdoutFailed ev) : Failed ev := by
  unfold StdoutFailed at h
  split at h
  · trivial
  · exact h.elim

theorem StoppedAt.stdoutFailed_iff {log pre rest : Log} {ev : Event linux}
    (h : StoppedAt log pre ev rest) : (∃ ev ∈ log, StdoutFailed ev) ↔ StdoutFailed ev := by
  constructor
  · rintro ⟨ev', hmem, hfailed⟩
    rwa [← h.failed_mem hmem hfailed.failed]
  · intro hfailed
    exact ⟨ev, by simp [h.log_eq], hfailed⟩

/-- Whether output is lost is decided at the call shovel stops at. -/
theorem StoppedAt.harmless_iff {log pre rest : Log} {ev : Event linux}
    (h : StoppedAt log pre ev rest) :
    (Delivered log ∨ ∃ ev ∈ log, StdoutFailed ev) ↔ Harmless pre ev := by
  rw [h.delivered_iff, h.stdoutFailed_iff]
  cases h.last with
  | poll hard level =>
      have hlevel : accepted output pre = returned output pre ↔ leftOver output pre = 0 :=
        level output (by decide)
      simp [acceptedBy, returnedBy, StdoutFailed, Harmless, hlevel]
  | pair i broken level =>
      have hlevel : i ≠ output →
          (accepted output pre = returned output pre ↔ leftOver output pre = 0) :=
        fun hi => level output (by decide) (Ne.symm hi)
      cases broken with
      | read drained =>
          by_cases hi : i = output
          · subst hi
            simp [acceptedBy, returnedBy, Harmless, drained]
          · simp [acceptedBy, returnedBy, StdoutFailed, Harmless, hlevel hi, hi]
      | @write fd bytes e offered =>
          by_cases hi : i = output
          · subst hi
            have hnone : accepted output pre = returned output pre ↔ bytes = [] := by
              rw [← offered]
              simp
            simp [acceptedBy, returnedBy, StdoutFailed, Harmless, hnone]
          · simp [acceptedBy, returnedBy, StdoutFailed, Harmless, hlevel hi, hi]

/-- Everything read from the PTY is written to stdout, or stdout failed for good,
just when the first failed call was harmless. -/
theorem forward_delivers_iff (pty : Fd) (log : Log)
    (run : (forward pty).Runs (tracing linux) [] (.value ()) log) :
    (Delivered log ∨ ∃ ev ∈ log, StdoutFailed ev) ↔
      ∀ pre ev rest, log = pre ++ ev :: rest → Calm pre → Failed ev → Harmless pre ev := by
  obtain ⟨pre, ev, rest, hstopped⟩ := run.of_wp (forward_wp pty)
  rw [hstopped.harmless_iff]
  constructor
  · intro hharmless pre' ev' rest' hlog hcalm hfailed
    obtain ⟨rfl, rfl⟩ := hstopped.unique hlog hcalm hfailed
    exact hharmless
  · intro h
    exact h pre ev rest hstopped.log_eq hstopped.calm hstopped.last.failed

/-- The PTY has output of two bytes of which stdout takes one; then reading stdin
fails. -/
def stdinFails (log : Log) : (c : Syscall) → c.Answer
  | .poll fds _ => .ok ⟨fds.map fun fd => decide (fd.file = .ofPair 0 3) == (accepted 1 log != []),
      by simp⟩
  | .read (.ofPair 1 _) size => if h : 2 ≤ size then .ok ⟨[104, 105], h⟩ else .error .invalidData
  | .write file bytes => oneByteAtATime (.write file bytes)
  | .dup _ => .ok 3
  | c => c.refused

/-- A failure of stdin discards output that was read from the PTY. -/
theorem forward_loses_output :
    ∃ log, (forward 5).Runs (tracing linux) [] (.value ()) log ∧
      ¬(Delivered log ∨ ∃ ev ∈ log, StdoutFailed ev) := by
  have hrun : ∃ log, (forward 5).Runs (tracing linux) [] (.value ()) log ∧
      accepted output log = [104] ∧ returned output log = [104, 105] ∧
      log.getLast? = some ⟨.read (.ofPair 0 3) bufSize, .error (.os .perm)⟩ :=
    ⟨_, .of_replay stdinFails 3 rfl, rfl, rfl, rfl⟩
  obtain ⟨log, hrun, haccepted, hreturned, hlast⟩ := hrun
  refine ⟨log, hrun, ?_⟩
  obtain ⟨pre, ev, rest, hstopped⟩ := hrun.of_wp (forward_wp 5)
  have hev := hstopped.failed_mem (List.mem_of_getLast? hlast) trivial
  rintro (hdelivered | hfailed)
  · rw [Delivered, haccepted, hreturned] at hdelivered
    cases hdelivered
  · rw [hstopped.stdoutFailed_iff, ← hev] at hfailed
    exact hfailed

/-- The same output, but stdin fails only once stdout has taken all of it. -/
def stdinFailsLater (log : Log) : (c : Syscall) → c.Answer
  | .poll fds _ => .ok ⟨fds.map fun fd =>
      decide (fd.file = .ofPair 0 3) == (accepted 1 log == [104, 105]), by simp⟩
  | .read (.ofPair 1 _) size => if h : 2 ≤ size then .ok ⟨[104, 105], h⟩ else .error .invalidData
  | .write file bytes => oneByteAtATime (.write file bytes)
  | .dup _ => .ok 3
  | c => c.refused

theorem forward_delivers_stdinFailsLater :
    ∃ log, (forward 5).Runs (tracing linux) [] (.value ()) log ∧
      (Delivered log ∨ ∃ ev ∈ log, StdoutFailed ev) ∧ accepted output log = [104, 105] ∧
      log.getLast? = some ⟨.read (.ofPair 0 3) bufSize, .error (.os .perm)⟩ := by
  have hrun : ∃ log, (forward 5).Runs (tracing linux) [] (.value ()) log ∧
      accepted output log = [104, 105] ∧ leftOver output log.dropLast = 0 ∧
      log.getLast? = some ⟨.read (.ofPair 0 3) bufSize, .error (.os .perm)⟩ :=
    ⟨_, .of_replay stdinFailsLater 4 rfl, rfl, rfl, rfl⟩
  obtain ⟨log, hrun, haccepted, hleft, hlast⟩ := hrun
  refine ⟨log, hrun, ?_, haccepted, hlast⟩
  obtain ⟨pre, ev, rest, hstopped⟩ := hrun.of_wp (forward_wp 5)
  have hrest : rest = [] := by
    rcases List.eq_nil_or_concat rest with rfl | ⟨rest', z, rfl⟩
    · rfl
    · rw [hstopped.log_eq, List.concat_eq_append, ← List.cons_append, ← List.append_assoc,
        List.getLast?_concat] at hlast
      obtain rfl := Option.some.inj hlast
      have haside := hstopped.aside ⟨.read (.ofPair 0 3) bufSize, .error (.os .perm)⟩ (by simp)
      exact (haside.2.2.2 trivial).elim
  have hpre : log.dropLast = pre := by
    rw [hstopped.log_eq, hrest, List.dropLast_concat]
  have hev := hstopped.failed_mem (List.mem_of_getLast? hlast) trivial
  apply (forward_delivers_iff 5 log hrun).mpr
  intro pre' ev' rest' heq hcalm hfailed
  obtain ⟨rfl, rfl⟩ := hstopped.unique heq hcalm hfailed
  rw [← hev]
  exact .inr (hpre ▸ hleft)

end Cntr.ForwardedOutput
