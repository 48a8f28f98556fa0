import Cntr.SystemCalls
import Mathlib.Logic.Relation

/-!
A process and the child it has forked, with the socket between them. The calls
of the parent are answered after any number of steps of the child.
-/

namespace Cntr.ForkedProcesses

open Cntr.ByteText
open Cntr.CallTree
open Cntr.SystemCalls

/-- What the kernel keeps of the child. -/
inductive Life where
  | alive
  | zombie (status : WaitStatus)
  | reaped (status : WaitStatus)

structure World where
  parentLog : Log
  childLog : Log
  /-- The child has become the command. -/
  executed : Bool
  life : Life
  /-- The messages that the child has sent and the parent has not received. -/
  queue : List (Bytes × List Fd)
  parentHoldsChildEnd : Bool

def World.forked : World where
  parentLog := []
  childLog := []
  executed := false
  life := .alive
  queue := []
  parentHoldsChildEnd := true

/-- How a process ends: `main` turns an error into the exit code 1. -/
def processEnd {ε : Type} : Outcome Halt ε Empty → Halt
  | .error _ => .exited 1
  | .halted h => h

def statusOf : Halt → Option WaitStatus
  | .exited code => some (.exited (UInt8.ofNat code))
  | .signaled sig => some (.signaled sig)
  | .panicked => some (.exited 101)
  | .executed => none

def Final : WaitStatus → Prop
  | .exited _ | .signaled _ => True
  | _ => False

def sentBy : Event linux → List (Bytes × List Fd)
  | ⟨.sendmsg message files, .ok _⟩ => [(message, files)]
  | _ => []

/-- One step of the child, of the command it has become, or of whoever kills it. -/
inductive ChildStep {ε : Type} (child : Sys ε Empty) : World → World → Prop where
  | call {w : World} {c : Syscall} (r : c.Answer) (alive : w.life = .alive)
      (unexecuted : w.executed = false)
      (issue : child.Issues (tracing linux) [] c w.childLog) :
      ChildStep child w
        { w with childLog := w.childLog ++ [⟨c, r⟩], queue := w.queue ++ sentBy ⟨c, r⟩ }
  | execute {w : World} (alive : w.life = .alive) (unexecuted : w.executed = false)
      (run : child.Runs (tracing linux) [] (.halted .executed) w.childLog) :
      ChildStep child w { w with executed := true }
  | exit {w : World} {o : Outcome Halt ε Empty} {status : WaitStatus}
      (alive : w.life = .alive) (unexecuted : w.executed = false)
      (run : child.Runs (tracing linux) [] o w.childLog)
      (ends : statusOf (processEnd o) = some status) :
      ChildStep child w { w with life := .zombie status }
  | command {w : World} {status : WaitStatus} (alive : w.life = .alive)
      (executed : w.executed = true) (final : Final status) :
      ChildStep child w { w with life := .zombie status }
  | killed {w : World} (sig : Signal) (alive : w.life = .alive) :
      ChildStep child w { w with life := .zombie (.signaled sig) }

/-- There is no message, and no process holds the child's end of the socket: the
child has it until it executes the command or ends. -/
def World.Closed (w : World) : Prop :=
  w.queue = [] ∧ w.parentHoldsChildEnd = false ∧ (w.life = .alive → w.executed = true)

/-- The calls whose answers have nothing to do with the child. -/
def Unrelated (childPid : Pid) : Syscall → Prop
  | .recvmsg _ | .dropSocket .child => False
  | .waitpid pid _ => pid ≠ childPid
  | _ => True

inductive Answers (childPid : Pid) : World → (c : Syscall) → c.Answer → World → Prop where
  | message {w : World} {message : Bytes × List Fd} {rest : List (Bytes × List Fd)}
      {files : List Fd} (length : Nat) (queued : w.queue = message :: rest)
      (same : files.length = message.2.length) :
      Answers childPid w (.recvmsg length) (.ok (message.1.take length, files))
        { w with queue := rest }
  | endOfFile {w : World} (length : Nat) (closed : w.Closed) :
      Answers childPid w (.recvmsg length) (.ok ([], [])) w
  | receiveError {w : World} {e : Errno} (length : Nat)
      (transient : w.Closed → e = .again ∨ e = .intr) :
      Answers childPid w (.recvmsg length) (.error e) w
  | ended {w : World} {status : WaitStatus} (untraced : Bool) (dead : w.life = .zombie status) :
      Answers childPid w (.waitpid childPid untraced) (.ok (some status))
        { w with life := .reaped status }
  | stopped {w : World} (sig : Signal) (alive : w.life = .alive) :
      Answers childPid w (.waitpid childPid true) (.ok (some (.stopped sig))) w
  | nothing (w : World) (untraced : Bool) :
      Answers childPid w (.waitpid childPid untraced) (.ok none) w
  | waitError (w : World) (untraced : Bool) (e : Errno) :
      Answers childPid w (.waitpid childPid untraced) (.error e) w
  | closed (w : World) :
      Answers childPid w (.dropSocket .child) () { w with parentHoldsChildEnd := false }
  | other (w : World) {c : Syscall} (r : c.Answer) (unrelated : Unrelated childPid c) :
      Answers childPid w c r w

/-- The kernel that the parent sees while the child runs beside it. -/
def beside {ε : Type} (childPid : Pid) (child : Sys ε Empty) : Kernel linux World :=
  fun w c r w' => ∃ w₁ w₂, Relation.ReflTransGen (ChildStep child) w w₁ ∧
    Answers childPid w₁ c r w₂ ∧ w' = { w₂ with parentLog := w₂.parentLog ++ [⟨c, r⟩] }

/-- The calls of a child: the only message is the ready message. -/
def ReportsReady : Syscall → Prop
  | .sendmsg message _ => message = ascii "R"
  | _ => True

/-- A child that does not become the command does not end with 0. -/
def Unsuccessful (h : Halt) : Prop := statusOf h ≠ some (.exited 0)

/-- What holds of both processes at any time. -/
structure Consistent (childPid : Pid) (w : World) : Prop where
  final : ∀ status, w.life = .zombie status ∨ w.life = .reaped status → Final status
  success : w.life = .zombie (.exited 0) ∨ w.life = .reaped (.exited 0) → w.executed = true
  calls : ∀ ev ∈ w.childLog, ReportsReady ev.1
  queued : ∀ message ∈ w.queue, ∃ files, ⟨.sendmsg message.1 files, .ok ()⟩ ∈ w.childLog
  received : ∀ length message, ⟨.recvmsg length, .ok message⟩ ∈ w.parentLog →
    message.1 = [] ∨ ∃ whole files, ⟨.sendmsg whole files, .ok ()⟩ ∈ w.childLog ∧
      message.1 = whole.take length
  reported : ∀ untraced status, ⟨.waitpid childPid untraced, .ok (some status)⟩ ∈ w.parentLog →
    (∃ sig, status = .stopped sig) ∨ w.life = .reaped status
  dropped : ⟨.dropSocket .child, ()⟩ ∈ w.parentLog → w.parentHoldsChildEnd = false

section Consistent

variable {ε : Type} {childPid : Pid} {child : Sys ε Empty} {w w' : World}

theorem consistent_forked (childPid : Pid) : Consistent childPid World.forked where
  final := by simp [World.forked]
  success := by simp [World.forked]
  calls := by simp [World.forked]
  queued := by simp [World.forked]
  received := by simp [World.forked]
  reported := by simp [World.forked]
  dropped := by simp [World.forked]

theorem eq_of_mem_sentBy {ev : Event linux} {message : Bytes × List Fd}
    (h : message ∈ sentBy ev) : ev = ⟨.sendmsg message.1 message.2, .ok ()⟩ := by
  unfold sentBy at h
  split at h
  · rw [List.mem_singleton.mp h]
  · cases h

theorem Consistent.end_life (h : Consistent childPid w) (halive : w.life = .alive)
    {status : WaitStatus} (hfinal : Final status)
    (hsuccess : status = .exited 0 → w.executed = true) :
    Consistent childPid { w with life := .zombie status } := by
  refine { h with final := ?_, success := ?_, reported := ?_ }
  · rintro status' (hlife | hlife)
    · cases hlife
      exact hfinal
    · cases hlife
  · rintro (hlife | hlife)
    · cases hlife
      exact hsuccess rfl
    · cases hlife
  · intro untraced status' hmem
    rcases h.reported untraced status' hmem with hstop | hreaped
    · exact .inl hstop
    · rw [halive] at hreaped
      cases hreaped

theorem final_of_statusOf {h : Halt} {status : WaitStatus} (hstatus : statusOf h = some status) :
    Final status := by
  cases h with
  | executed => cases hstatus
  | _ =>
      cases hstatus
      trivial

theorem Consistent.childStep (hchild : child.Within ReportsReady Unsuccessful)
    (h : Consistent childPid w) (step : ChildStep child w w') : Consistent childPid w' := by
  cases step with
  | @call c r alive unexecuted issue =>
      refine { h with calls := ?_, queued := ?_, received := ?_ }
      · intro ev hmem
        rcases List.mem_append.mp hmem with hmem | hmem
        · exact h.calls ev hmem
        · rw [List.mem_singleton.mp hmem]
          exact hchild.calls_of_issues issue
      · intro message hmem
        rcases List.mem_append.mp hmem with hmem | hmem
        · obtain ⟨files, hsent⟩ := h.queued message hmem
          exact ⟨files, List.mem_append_left _ hsent⟩
        · have hsent := eq_of_mem_sentBy hmem
          exact ⟨message.2, List.mem_append_right _ (List.mem_singleton.mpr hsent.symm)⟩
      · intro length message hmem
        rcases h.received length message hmem with hempty | ⟨whole, files, hsent, htake⟩
        · exact .inl hempty
        · exact .inr ⟨whole, files, List.mem_append_left _ hsent, htake⟩
  | execute alive unexecuted run =>
      refine { h with success := ?_ }
      intro _
      rfl
  | @exit o status alive unexecuted run ends =>
      apply h.end_life alive (final_of_statusOf ends)
      intro hzero
      rw [hzero] at ends
      cases o with
      | value never => exact nomatch never
      | error e => cases ends
      | halted e => exact absurd ends (hchild.halts_of_runs run)
  | command alive executed final => exact h.end_life alive final fun _ => executed
  | killed sig alive => exact h.end_life alive trivial fun hzero => (by cases hzero)

theorem Consistent.childSteps (hchild : child.Within ReportsReady Unsuccessful)
    (h : Consistent childPid w) (steps : Relation.ReflTransGen (ChildStep child) w w') :
    Consistent childPid w' := by
  induction steps with
  | refl => exact h
  | tail _ step ih => exact ih.childStep hchild step

theorem Consistent.snoc (h : Consistent childPid w) {c : Syscall} {r : c.Answer}
    (hreceived : ∀ length message, (⟨c, r⟩ : Event linux) = ⟨.recvmsg length, .ok message⟩ →
      message.1 = [] ∨ ∃ whole files, ⟨.sendmsg whole files, .ok ()⟩ ∈ w.childLog ∧
        message.1 = whole.take length)
    (hreported : ∀ untraced status,
      (⟨c, r⟩ : Event linux) = ⟨.waitpid childPid untraced, .ok (some status)⟩ →
      (∃ sig, status = .stopped sig) ∨ w.life = .reaped status)
    (hdropped : (⟨c, r⟩ : Event linux) = ⟨.dropSocket .child, ()⟩ →
      w.parentHoldsChildEnd = false) :
    Consistent childPid { w with parentLog := w.parentLog ++ [⟨c, r⟩] } := by
  refine { h with received := ?_, reported := ?_, dropped := ?_ }
  · intro length message hmem
    rcases List.mem_append.mp hmem with hmem | hmem
    · exact h.received length message hmem
    · exact hreceived length message (List.mem_singleton.mp hmem).symm
  · intro untraced status hmem
    rcases List.mem_append.mp hmem with hmem | hmem
    · exact h.reported untraced status hmem
    · exact hreported untraced status (List.mem_singleton.mp hmem).symm
  · intro hmem
    rcases List.mem_append.mp hmem with hmem | hmem
    · exact h.dropped hmem
    · exact hdropped (List.mem_singleton.mp hmem).symm

theorem Consistent.unqueue (h : Consistent childPid w) {message : Bytes × List Fd}
    {rest : List (Bytes × List Fd)} (queued : w.queue = message :: rest) :
    Consistent childPid { w with queue := rest } := by
  refine { h with queued := ?_ }
  intro m hm
  exact h.queued m (by rw [queued]; exact List.mem_cons_of_mem _ hm)

theorem Consistent.reap (h : Consistent childPid w) {status : WaitStatus}
    (dead : w.life = .zombie status) : Consistent childPid { w with life := .reaped status } := by
  refine { h with final := ?_, success := ?_, reported := ?_ }
  · rintro status' (hlife | hlife)
    · cases hlife
    · cases hlife
      exact h.final status (.inl dead)
  · rintro (hlife | hlife)
    · cases hlife
    · cases hlife
      exact h.success (.inl dead)
  · intro untraced' status' hmem
    rcases h.reported untraced' status' hmem with hstop | hlife
    · exact .inl hstop
    · rw [dead] at hlife
      cases hlife

theorem Consistent.answer (h : Consistent childPid w) {c : Syscall} {r : c.Answer}
    (answer : Answers childPid w c r w') :
    Consistent childPid { w' with parentLog := w'.parentLog ++ [⟨c, r⟩] } := by
  cases answer with
  | @message message rest files length queued same =>
      refine (h.unqueue queued).snoc ?_ (fun _ _ heq => by cases heq) fun heq => by cases heq
      intro length' message' heq
      cases heq
      obtain ⟨sent, hsent⟩ := h.queued message (by simp [queued])
      exact .inr ⟨message.1, sent, hsent, rfl⟩
  | endOfFile length closed =>
      refine h.snoc ?_ (fun _ _ heq => by cases heq) fun heq => by cases heq
      intro length' message' heq
      cases heq
      exact .inl rfl
  | receiveError length transient =>
      exact h.snoc (fun _ _ heq => by cases heq) (fun _ _ heq => by cases heq)
        fun heq => by cases heq
  | @ended status untraced dead =>
      refine (h.reap dead).snoc (fun _ _ heq => by cases heq) ?_ fun heq => by cases heq
      intro untraced' status' heq
      cases heq
      exact .inr rfl
  | stopped sig alive =>
      refine h.snoc (fun _ _ heq => by cases heq) ?_ fun heq => by cases heq
      intro untraced status heq
      cases heq
      exact .inl ⟨sig, rfl⟩
  | nothing untraced =>
      exact h.snoc (fun _ _ heq => by cases heq) (fun _ _ heq => by cases heq)
        fun heq => by cases heq
  | waitError untraced e =>
      exact h.snoc (fun _ _ heq => by cases heq) (fun _ _ heq => by cases heq)
        fun heq => by cases heq
  | closed =>
      have hclosed : Consistent childPid { w with parentHoldsChildEnd := false } :=
        { h with dropped := fun _ => rfl }
      exact hclosed.snoc (fun _ _ heq => by cases heq) (fun _ _ heq => by cases heq)
        fun _ => rfl
  | other r unrelated =>
      refine h.snoc ?_ ?_ ?_
      · intro length message heq
        cases heq
        exact unrelated.elim
      · intro untraced status heq
        cases heq
        exact absurd rfl unrelated
      · intro heq
        cases heq
        exact unrelated.elim

theorem Consistent.beside (hchild : child.Within ReportsReady Unsuccessful)
    {c : Syscall} {r : c.Answer} (step : beside childPid child w c r w')
    (h : Consistent childPid w) : Consistent childPid w' := by
  obtain ⟨w₁, w₂, steps, answer, rfl⟩ := step
  exact (h.childSteps hchild steps).answer answer

end Consistent

end Cntr.ForkedProcesses
