import Cntr.ForkingPrograms
import Cntr.NamespaceMembership
import Cntr.ParentProgress
import Mathlib.Data.List.Induction

namespace Cntr.ExitPropagation

open Cntr.ByteText
open Cntr.CallTree
open Cntr.SystemCalls
open Cntr.AttachChild
open Cntr.AttachParent
open Cntr.CallsMade
open Cntr.CommandExecution
open Cntr.ContainerSetup
open Cntr.ExecCommand (ExecError ExecOptions execChild)
open Cntr.ForkedProcesses
open Cntr.IdmapHelperProcess
open Cntr.NamespaceFiles
open Cntr.NamespaceMembership (willing)
open Cntr.ParentProgress
open Cntr.ParentSupervision
open Cntr.PtySession
open Cntr.ReadySocket
open Cntr.WaitedChild
open Cntr.WholeWrites

section Children

variable {ε : Type}

/-- Programs that report what the parent relies on. -/
abbrev Reports {α : Type} (p : Sys ε α) : Prop := p.Within ReportsReady Unsuccessful

theorem reports_of_quiet {α : Type} {p : Sys ε α} (h : p.Within Quiet Unsuccessful) :
    Reports p := by
  refine h.mono (fun c hc => ?_) fun _ => id
  cases c <;> first | exact hc.elim | trivial

theorem panicked_unsuccessful : Unsuccessful .panicked := by
  intro h
  cases h

theorem reports_of_enters {α : Type} {p : Sys ε α} (h : p.Within Enters Unsuccessful) :
    Reports p := by
  refine h.mono (fun c hc => ?_) fun _ => id
  cases c <;> first | exact hc.elim | trivial

theorem reports_of_still {α : Type} {p : Sys ε α} (h : p.Within Still Unsuccessful) :
    Reports p := reports_of_enters (enters_of_still h)

theorem reports_of_adopts {α : Type} {p : Sys ε α} (h : p.Within Adopts Unsuccessful) :
    Reports p := by
  refine h.mono (fun c hc => ?_) fun _ => id
  cases c <;> first | exact hc.elim | trivial

theorem execute_reports (cmd : Cmd) (environment : Environment) :
    Reports (execute cmd environment) := by
  refine ⟨trivial, ?_⟩
  rintro (e | _)
  · trivial
  · intro h
    cases h

theorem assembleHierarchy_reports (options : ChildOptions) (baseDir : Path) :
    Reports (assembleHierarchy options baseDir) := by
  have htrees : ∀ ourMountNs, Reports (captureAndAttachContainerTrees
      options.processStatus.globalPid ourMountNs baseDir) := by
    intro ourMountNs
    refine (reports_of_still (openKind_still _ _)).mapError.bind fun containerMountNs => ?_
    refine (reports_of_enters (apply_enters _)).mapError.bind fun _ => .check trivial fun dir => ?_
    refine (reports_of_quiet (captureTrees_quiet _)).bind fun trees => ?_
    exact (reports_of_enters (apply_enters _)).mapError.bind fun _ =>
      .forEach (fun captured => reports_of_quiet (attachCaptured_quiet baseDir captured)) trees
  refine .check trivial fun _ => .check trivial fun _ => .check trivial fun _ =>
    .check trivial fun _ => ?_
  refine (reports_of_quiet (idmapMounts_quiet _ _)).bind fun _ => ⟨trivial, fun ownPid => ?_⟩
  refine (reports_of_still (openKind_still _ _)).mapError.bind fun ourMountNs => ?_
  refine .check trivial fun _ => ?_
  refine (reports_of_still (setupContainerTimezone_still _)).bind fun localtimeCopy => ?_
  exact (htrees ourMountNs).bind fun _ => trivial

theorem enterAndExecute_reports (options : ChildOptions) (baseDir : Path) (cmd : Cmd)
    (otherNamespaces : List Namespace) :
    Reports (enterAndExecute options baseDir cmd otherNamespaces) := by
  have hsend : ∀ ptyMaster, Reports (sendReady ptyMaster) := fun ptyMaster =>
    Program.Within.mapError ⟨rfl, fun r => (Program.within_ofExcept _ r).mpr trivial⟩
  refine (reports_of_enters (applyAll_enters otherNamespaces)).mapError.bind fun _ => ?_
  refine (reports_of_quiet setupPty_quiet).bind fun ptyMaster => ?_
  refine (reports_of_enters (applySecurityContext_enters panicked_unsuccessful _ _)).mapError.bind
    fun _ => ?_
  refine (hsend ptyMaster).bind fun _ => ⟨trivial, fun _ => ?_⟩
  refine (reports_of_adopts (inheritProfile_adopts _)).bind fun _ => Program.Within.mapError ?_
  exact ⟨trivial, fun ownPath => execute_reports cmd _⟩

theorem attachRun_reports (options : ChildOptions) : Reports (AttachChild.run options) := by
  refine ⟨trivial, fun pid => ?_⟩
  refine (reports_of_still (moveTo_still _ _)).mapError.bind fun _ => ?_
  refine (reports_of_still (cmdNew_still _ _ _ _)).mapError.bind fun cmd => ?_
  refine (reports_of_still supportedNamespaces_still).mapError.bind fun supported => ?_
  split
  · trivial
  · refine (reports_of_still (attachOpenOthers_still _ _ _ _)).bind fun otherNamespaces => ?_
    refine (reports_of_still getBaseDir_still).bind fun baseDir => ?_
    refine (assembleHierarchy_reports options baseDir).bind fun localtimeCopy => ?_
    exact enterAndExecute_reports options baseDir _ otherNamespaces

theorem attachChildBranch_reports (options : ChildOptions) :
    Reports (AttachParent.childBranch options) := by
  refine ⟨trivial, fun _ => (attachRun_reports options).attempt.bind fun _ => ?_⟩
  intro h
  cases h

theorem execChild_reports (processStatus : ProcStatus) (exe : Option Bytes) (args : List Bytes)
    (ptyMaster : Option Fd) : Reports (execChild processStatus exe args ptyMaster) := by
  refine (reports_of_quiet (attachPtySlave_quiet ptyMaster)).bind fun _ => ?_
  refine (reports_of_still (cmdNew_still _ _ _ _)).mapError.bind fun cmd => ?_
  refine (reports_of_enters (enterContainer_enters panicked_unsuccessful
    processStatus)).mapError.bind fun _ => Program.Within.mapError ?_
  refine (reports_of_still (containerEnvironment_still cmd)).bind fun environment => ?_
  exact (reports_of_adopts (preExec_adopts _ _)).mapError.bind fun _ =>
    execute_reports cmd environment

theorem execChildBranch_reports (opts : ExecOptions) (processStatus : ProcStatus)
    (ptyMaster : Option Fd) : Reports (ExecCommand.childBranch opts processStatus ptyMaster) := by
  refine (execChild_reports _ _ _ _).attempt.bind fun _ => ?_
  intro h
  cases h

end Children

/-- The rest of `attach` once the child is forked, in either process. -/
def attachAfterFork (idmapHelper : Option IdmapHelper) (options : ChildOptions) (fork : Fork) :
    Sys AttachError Empty := do
  let res ← (AttachParent.afterFork options fork).attempt
  dropHelper idmapHelper
  Program.ofExcept id res

/-- What `attach` does once it has forked is what is looked at here. -/
theorem attach_eq (opts : AttachOptions) (processStatus : ProcStatus) :
    attach opts processStatus = (createHelper opts.effectiveUser).bind fun idmapHelper =>
      ((ReadySocket.socketPair.mapError .ipc).attempt).bind fun
        | .error e => (dropHelper idmapHelper).bind fun _ => .fail e
        | .ok _ => (sys .fork).bind fun
            | .error e => (dropHelper idmapHelper).bind fun _ => .fail (.fork e)
            | .ok fork =>
                attachAfterFork idmapHelper (childOptions opts processStatus idmapHelper)
                  fork := by
  refine congrArg _ (funext fun idmapHelper => ?_)
  simp only [attachWithHelper, Program.bind_eq, Program.attempt_bind, Program.bind_assoc]
  refine congrArg _ (funext fun paired => ?_)
  cases paired with
  | error e => rfl
  | ok _ =>
      refine congrArg (Program.ask (S := linux) Syscall.fork) (funext fun fork => ?_)
      cases fork with
      | error e => rfl
      | ok fork => rfl

/-- The child has ended and the parent ends in the same way. -/
def Propagates {ε : Type} (o : Outcome Halt ε Empty) : WaitStatus → Prop
  | .exited code => o = .halted (.exited code.toNat)
  | .signaled sig => o = .halted (.signaled sig) ∨ o = .halted (.exited (128 + sig.raw))
  | _ => False

/-- What the parent of a fork promises, for any schedule of the child. -/
structure FollowsChild {ε : Type} (childPid : Pid) (program : Fork → Sys ε Empty)
    (unexpected : WaitStatus → ε) (Ready : Log → Prop) : Prop where
  exit_zero : ∀ o w, (program (.parentOf childPid)).Runs (beside childPid (program .child))
    World.forked o w → statusOf (processEnd o) = some (.exited 0) →
    w.executed = true ∧ w.life = .reaped (.exited 0)
  propagates : ∀ o w, (program (.parentOf childPid)).Runs (beside childPid (program .child))
    World.forked o w → Ready w.parentLog →
    (∀ e, ⟨.waitpid childPid true, .error e⟩ ∈ w.parentLog → e = .intr) →
    ∃ status, w.life = .reaped status ∧ Propagates o status
  stops_answered : ∀ c w, (program (.parentOf childPid)).Issues
    (beside childPid (program .child)) World.forked c w →
    StopsAnswered childPid w.parentLog c
  stops_done : ∀ o w, (program (.parentOf childPid)).Runs (beside childPid (program .child))
    World.forked o w → StopsDone childPid w.parentLog
  expected : ∀ o w, (program (.parentOf childPid)).Runs (beside childPid (program .child))
    World.forked o w → ∀ status, o ≠ .error (unexpected status)
  completes : ∀ repetitions, (program (.parentOf childPid)).Ensures
    (settling childPid (program .child))
    (fun o s => Ready s.1.parentLog → ∃ status, s.1.life = .reaped status ∧ Propagates o status)
    (World.forked, repetitions)

def Unready (w : World) : Prop := ∀ files, ⟨.sendmsg (ascii "R") files, .ok ()⟩ ∉ w.childLog

/-- What the parent of `attach` does when the child never gets ready. -/
structure NoticesFailure (childPid : Pid) (program : Fork → Sys AttachError Empty) : Prop where
  not_ready : ∀ o w, (program (.parentOf childPid)).Runs (beside childPid (program .child))
    World.forked o w → Unready w →
    (∀ e, ⟨.recvmsg 1, .error e⟩ ∈ w.parentLog → e = .again ∨ e = .intr) →
    o = .error .childNotReady
  end_of_file : ∀ w, (program (.parentOf childPid)).Issues (beside childPid (program .child))
    World.forked (.recvmsg 1) w → Unready w → w.life ≠ .alive →
    (∃ w', beside childPid (program .child) w (.recvmsg 1) (.ok ([], [])) w') ∧
    ∀ r w', beside childPid (program .child) w (.recvmsg 1) r w' →
      r = .ok ([], []) ∨ r = .error .again ∨ r = .error .intr
  returns : ∀ repetitions, (program (.parentOf childPid)).Ensures
    (settling childPid (program .child))
    (fun o s => Unready s.1 → o = .error .childNotReady) (World.forked, repetitions)

section Ends

variable {ε : Type} {childPid : Pid} {w : World} {o : Outcome Halt PtyError Empty} {last : Log}

theorem ended_exitZero (h : Ended childPid o last) (hw : Consistent childPid w)
    (hlast : ∀ ev ∈ last, ev ∈ w.parentLog) (hzero : statusOf (processEnd o) = some (.exited 0)) :
    w.executed = true ∧ w.life = .reaped (.exited 0) := by
  have hsignal : ∀ sig : Signal, statusOf (.exited (128 + sig.raw)) ≠ some (.exited 0) := by
    intro sig heq
    have hmod : UInt8.ofNat (128 + sig.raw) = 0 := by
      simpa [statusOf] using heq
    have hval := congrArg UInt8.toNat hmod
    have hle := sig.le_max
    simp only [UInt8.toNat_ofNat'] at hval
    rw [Nat.mod_eq_of_lt (by omega)] at hval
    simp at hval
  cases h with
  | exited code =>
      have hcode : code = 0 := by
        simpa [statusOf, processEnd] using hzero
      subst hcode
      rcases hw.reported true (.exited 0) (hlast _ (by simp)) with ⟨sig, hstop⟩ | hreaped
      · cases hstop
      · exact ⟨hw.success (.inr hreaped), hreaped⟩
  | died named => cases hzero
  | survived named => exact absurd hzero (hsignal _)
  | unnamed unnamed => exact absurd hzero (hsignal _)
  | failed hard => cases hzero
  | unexpected => cases hzero

theorem ended_propagates (h : Ended childPid o last) (hw : Consistent childPid w)
    (hlast : ∀ ev ∈ last, ev ∈ w.parentLog)
    (hsoft : ∀ e, ⟨.waitpid childPid true, .error e⟩ ∈ w.parentLog → e = .intr) :
    ∃ status, w.life = .reaped status ∧ Propagates o status := by
  have hreaped : ∀ status, (∀ sig, status ≠ .stopped sig) →
      ⟨.waitpid childPid true, .ok (some status)⟩ ∈ last → w.life = .reaped status := by
    intro status hnot hmem
    rcases hw.reported true status (hlast _ hmem) with ⟨sig, hstop⟩ | hreaped
    · exact absurd hstop (hnot sig)
    · exact hreaped
  cases h with
  | exited code => exact ⟨_, hreaped (.exited code) (by simp) (by simp), rfl⟩
  | died named => exact ⟨_, hreaped (.signaled _) (by simp) (by simp), .inl rfl⟩
  | survived named => exact ⟨_, hreaped (.signaled _) (by simp) (by simp), .inr rfl⟩
  | unnamed unnamed => exact ⟨_, hreaped (.signaled _) (by simp) (by simp), .inr rfl⟩
  | failed hard => exact absurd (hsoft _ (hlast _ (by simp))) hard
  | unexpected =>
      have hfinal := hw.final _ (.inr (hreaped .continued (by simp) (by simp)))
      exact hfinal.elim

theorem ended_expected (h : Ended childPid o last) (hw : Consistent childPid w)
    (hlast : ∀ ev ∈ last, ev ∈ w.parentLog) (status : WaitStatus) :
    o ≠ .error (.unexpectedWaitEvent status) := by
  rintro rfl
  cases h with
  | unexpected =>
      rcases hw.reported true .continued (hlast _ (by simp)) with ⟨sig, hstop⟩ | hreaped
      · cases hstop
      · exact hw.final _ (.inr hreaped)

theorem processEnd_mapError (f : PtyError → ε) (o : Outcome Halt PtyError Empty) :
    processEnd (o.mapError f) = processEnd o := by
  cases o with
  | value never => exact nomatch never
  | _ => rfl

theorem propagates_mapError (f : PtyError → ε) {status : WaitStatus} (h : Propagates o status) :
    Propagates (o.mapError f) status := by
  cases status with
  | exited code =>
      obtain rfl := h
      rfl
  | signaled sig =>
      rcases h with rfl | rfl
      · exact .inl rfl
      · exact .inr rfl
  | _ => exact h.elim

end Ends

/-- How a parent ends: early, or with the child, for which it was `Ready`. -/
inductive ParentEnded {ε : Type} (childPid : Pid) (f : PtyError → ε) (Early : ε → Log → Prop)
    (Ready : Log → Prop) : Outcome Halt ε Empty → Log → Prop where
  | early {e : ε} {log : Log} (reason : Early e log) :
      ParentEnded childPid f Early Ready (.error e) log
  | supervised {o : Outcome Halt PtyError Empty} {last log : Log} (ready : Ready log)
      (ended : Ended childPid o last) (last_mem : ∀ ev ∈ last, ev ∈ log) :
      ParentEnded childPid f Early Ready (o.mapError f) log

section World

variable {ε : Type} {childPid : Pid} {child : Sys ε Empty} {w w' : World}

theorem childSteps_parentLog (steps : Relation.ReflTransGen (ChildStep child) w w') :
    w'.parentLog = w.parentLog := by
  induction steps with
  | refl => rfl
  | tail _ step ih =>
      rw [← ih]
      cases step <;> rfl

theorem beside_traces {c : Syscall} {r : c.Answer} (step : beside childPid child w c r w') :
    tracing linux w.parentLog c r w'.parentLog := by
  obtain ⟨w₁, w₂, steps, answer, rfl⟩ := step
  have hanswer : w₂.parentLog = w₁.parentLog := by
    cases answer <;> rfl
  change w₂.parentLog ++ [⟨c, r⟩] = w.parentLog ++ [⟨c, r⟩]
  rw [hanswer, childSteps_parentLog steps]

theorem issues_traced {program : Sys ε Empty} {c : Syscall}
    (issue : program.Issues (beside childPid child) w c w') :
    program.Issues (tracing linux) w.parentLog c w'.parentLog :=
  issue.map fun _ _ _ _ step => beside_traces step

theorem runs_end {program : Fork → Sys ε Empty} {f : PtyError → ε} {Early : ε → Log → Prop}
    {Ready : Log → Prop} (hchild : Reports (program .child))
    (hparent : (program (.parentOf childPid)).wp (tracing linux) (StopsAnswered childPid)
      (fun o log => StopsDone childPid log ∧ ParentEnded childPid f Early Ready o log) [])
    {o : Outcome Halt ε Empty} (run : (program (.parentOf childPid)).Runs
      (beside childPid (program .child)) World.forked o w) :
    Consistent childPid w ∧ StopsDone childPid w.parentLog ∧
      ParentEnded childPid f Early Ready o w.parentLog := by
  have htrace := run.map (L := tracing linux) (f := World.parentLog)
    fun _ _ _ _ step => beside_traces step
  refine ⟨?_, htrace.of_wp hparent⟩
  exact run.invariant (fun _ _ _ _ step h => h.beside hchild step) (consistent_forked childPid)

theorem settling_traces {s s' : World × Nat} {c : Syscall} {r : c.Answer}
    (step : settling childPid child s c r s') :
    tracing linux s.1.parentLog c r s'.1.parentLog := beside_traces step.1

/-- What every run beside the child ends with is what the parent comes to, if it does not
wait for a child that it has reaped and has closed the child's end before it receives. -/
theorem ensures_of_runs {program : Fork → Sys ε Empty} {Q : Outcome Halt ε Empty → World → Prop}
    (hchild : Reports (program .child))
    (hends : ∀ s, (program (.parentOf childPid)).Terminates
      (settling childPid (program .child)) s)
    (hcalls : (program (.parentOf childPid)).wp (tracing linux)
      (fun log c => WaitsOnce childPid log c ∧ ReceivesClosed log c) (fun _ _ => True) [])
    (hruns : ∀ o w, (program (.parentOf childPid)).Runs (beside childPid (program .child))
      World.forked o w → (∀ ev ∈ w.parentLog, ¬Refuses childPid ev) → Q o w)
    (repetitions : Nat) :
    (program (.parentOf childPid)).Ensures (settling childPid (program .child))
      (fun o s => Q o s.1) (World.forked, repetitions) := by
  refine ⟨hends _, Program.wp_of_runs (fun o s run => ?_) fun c s issue => ?_⟩
  · refine hruns o s.1 (run.map (f := Prod.fst) fun _ _ _ _ step => step.1) ?_
    refine run.invariant (I := fun s => ∀ ev ∈ s.1.parentLog, ¬Refuses childPid ev) ?_
      (by simp [World.forked])
    intro s c r s' step h ev hmem
    rw [settling_traces step] at hmem
    rcases List.mem_append.mp hmem with hmem | hmem
    · exact h ev hmem
    · rw [List.mem_singleton.mp hmem]
      exact step.2.1
  · have hw : Consistent childPid s.1 ∧ Reported childPid s.1 := by
      refine issue.invariant (I := fun s => Consistent childPid s.1 ∧ Reported childPid s.1) ?_
        ⟨consistent_forked childPid, fun status hlife => (by cases hlife)⟩
      intro s c r s' step h
      exact ⟨h.1.beside hchild step.1, reported_beside step.1 h.2⟩
    obtain ⟨honce, hclosed⟩ := Program.Issues.of_wp (issue.map (L := tracing linux)
      (f := fun s => s.1.parentLog) fun _ _ _ _ step => settling_traces step) hcalls
    exact exists_answer hw.1 hw.2 (fun length hc => hw.1.dropped (hclosed length hc)) honce s.2

theorem followsChild_of_wp {program : Fork → Sys ε Empty} {f : PtyError → ε}
    {Early : ε → Log → Prop} {Ready : Log → Prop} (hchild : Reports (program .child))
    (hparent : (program (.parentOf childPid)).wp (tracing linux) (StopsAnswered childPid)
      (fun o log => StopsDone childPid log ∧ ParentEnded childPid f Early Ready o log) [])
    (hf : Function.Injective f)
    (hexpected : ∀ e log status, Early e log → e ≠ f (.unexpectedWaitEvent status))
    (hready : ∀ e log, Early e log → ¬Ready log)
    (hends : ∀ s, (program (.parentOf childPid)).Terminates
      (settling childPid (program .child)) s)
    (hcalls : (program (.parentOf childPid)).wp (tracing linux)
      (fun log c => WaitsOnce childPid log c ∧ ReceivesClosed log c) (fun _ _ => True) []) :
    FollowsChild childPid program (fun status => f (.unexpectedWaitEvent status)) Ready := by
  have hpropagates : ∀ o w, (program (.parentOf childPid)).Runs
      (beside childPid (program .child)) World.forked o w → Ready w.parentLog →
      (∀ e, ⟨.waitpid childPid true, .error e⟩ ∈ w.parentLog → e = .intr) →
      ∃ status, w.life = .reaped status ∧ Propagates o status := by
    intro o w run hisReady hsoft
    obtain ⟨hw, -, hended⟩ := runs_end hchild hparent run
    cases hended with
    | early reason => exact absurd hisReady (hready _ _ reason)
    | supervised ready ended last_mem =>
        obtain ⟨status, hlife, hpropagates⟩ := ended_propagates ended hw last_mem hsoft
        exact ⟨status, hlife, propagates_mapError f hpropagates⟩
  refine ⟨?_, hpropagates, ?_, ?_, ?_, ?_⟩
  · intro o w run hzero
    obtain ⟨hw, -, hended⟩ := runs_end hchild hparent run
    cases hended with
    | early reason => cases hzero
    | supervised ready ended last_mem =>
        rw [processEnd_mapError] at hzero
        exact ended_exitZero ended hw last_mem hzero
  · intro c w issue
    exact (issues_traced issue).of_wp hparent
  · intro o w run
    exact (runs_end hchild hparent run).2.1
  · intro o w run status
    obtain ⟨hw, -, hended⟩ := runs_end hchild hparent run
    cases hended with
    | early reason =>
        intro heq
        exact hexpected _ _ status reason (Outcome.error.inj heq)
    | @supervised o _ _ _ ended last_mem =>
        intro heq
        cases o with
        | value never => exact nomatch never
        | error e =>
            obtain rfl := hf (Outcome.error.inj heq)
            exact ended_expected ended hw last_mem status rfl
        | halted h => cases heq
  · refine ensures_of_runs (Q := fun o w => Ready w.parentLog → ∃ status,
      w.life = .reaped status ∧ Propagates o status) hchild hends hcalls
      fun o w run hsoft hisReady => ?_
    refine hpropagates o w run hisReady fun e hmem => ?_
    by_contra hne
    exact hsoft _ hmem ⟨rfl, rfl, hne⟩

end World

section Programs

variable {childPid : Pid}

theorem unreported_nil (sig : Signal) : stopReport childPid sig ∉ ([] : Log) :=
  List.not_mem_nil

theorem supervised_done {seg log : Log} {o : Outcome Halt PtyError Empty}
    (h : Supervised childPid [] seg o log) :
    StopsDone childPid log ∧ ∃ last, Ended childPid o last ∧ (∀ ev ∈ last, ev ∈ log) ∧
      ∀ ev ∈ seg, ev ∈ log := by
  obtain ⟨hattends, rounds, last, rfl, hended⟩ := h
  have hnone : ∀ sig, stopReport childPid sig ∉ [] ++ seg :=
    unreported_append (by simp) hattends
  refine ⟨stopsDone_of rounds hnone hended, last, hended, ?_, ?_⟩
  · intro ev hmem
    simp [hmem]
  · intro ev hmem
    simp [hmem]

/-- The errors with which `attach` returns without having waited. -/
def EarlyError (e : AttachError) (log : Log) : Prop :=
  (∃ errno, e = .ipc (.receive errno) ∧ ¬(errno = .again ∨ errno = .intr) ∧
    ⟨.recvmsg 1, .error errno⟩ ∈ log ∧ ∀ message, ⟨.recvmsg 1, .ok message⟩ ∉ log) ∨
  (e = .childNotReady ∧ ∃ message : Bytes × List Fd, message.1.head? ≠ some 82 ∧
    ∀ message', ⟨.recvmsg 1, .ok message'⟩ ∈ log ↔ message' = message)

def ReadyReceived (log : Log) : Prop :=
  ∃ message : Bytes × List Fd, ⟨.recvmsg 1, .ok message⟩ ∈ log ∧ message.1.head? = some 82

theorem attachEnded_done {o : Outcome Halt AttachError Empty} {log : Log}
    (h : AttachEnded childPid [] o log) :
    StopsDone childPid log ∧
      ParentEnded childPid AttachError.pty EarlyError ReadyReceived o log := by
  cases h with
  | receiveFailed hattends hhard hfailed hnone =>
      refine ⟨stopsDone_of_unreported (unreported_append (by simp) hattends), .early (.inl ?_)⟩
      exact ⟨_, rfl, hhard, hfailed, hnone⟩
  | notReady hattends honly hother =>
      refine ⟨stopsDone_of_unreported (unreported_append (by simp) hattends), .early (.inr ?_)⟩
      exact ⟨rfl, _, hother, honly⟩
  | supervised hreceived hready hwaited =>
      obtain ⟨hdone, last, hended, hlast, hseg⟩ := supervised_done hwaited
      exact ⟨hdone, .supervised ⟨_, hseg _ hreceived, hready⟩ hended hlast⟩

def Drops : Syscall → Prop
  | .kill _ _ => True
  | .waitpid _ untraced => untraced = false
  | _ => False

theorem dropHelper_wp (idmapHelper : Option IdmapHelper) {log : Log}
    (hdone : StopsDone childPid log) :
    (dropHelper idmapHelper).wp (tracing linux) (StopsAnswered childPid)
      (fun o log' => o = .value () ∧ ∃ seg, log' = log ++ seg ∧ ∀ ev ∈ seg, Drops ev.1) log := by
  cases idmapHelper with
  | none => exact ⟨rfl, [], by simp, by simp⟩
  | some helper =>
      rw [dropHelper, IdmapHelper.drop, Program.bind_eq, Program.wp_call_tracing]
      refine ⟨hdone.answered _, fun killed => ?_⟩
      rw [Program.bind_eq, Program.wp_call_tracing]
      have hkilled : StopsDone childPid (log ++ [⟨.kill helper.pid .kill, killed⟩]) :=
        hdone.append fun sig hmem => (by cases List.mem_singleton.mp hmem)
      refine ⟨hkilled.answered _, fun reaped => ⟨rfl, _, List.append_assoc _ _ _, ?_⟩⟩
      simp [Drops]

theorem ParentEnded.append {o : Outcome Halt AttachError Empty} {log seg : Log}
    (h : ParentEnded childPid AttachError.pty EarlyError ReadyReceived o log)
    (hseg : ∀ ev ∈ seg, Drops ev.1) :
    ParentEnded childPid AttachError.pty EarlyError ReadyReceived o (log ++ seg) := by
  have hreceived : ∀ r, ⟨.recvmsg 1, r⟩ ∈ log ++ seg ↔ ⟨.recvmsg 1, r⟩ ∈ log := by
    intro r
    constructor
    · intro hmem
      rcases List.mem_append.mp hmem with hmem | hmem
      · exact hmem
      · exact (hseg _ hmem).elim
    · exact List.mem_append_left seg
  cases h with
  | early reason =>
      refine .early ?_
      simpa only [EarlyError, hreceived] using reason
  | supervised ready ended last_mem =>
      refine .supervised ?_ ended fun ev hmem => List.mem_append_left _ (last_mem ev hmem)
      simpa only [ReadyReceived, hreceived] using ready

theorem attachAfterFork_wp (idmapHelper : Option IdmapHelper) (options : ChildOptions) :
    (attachAfterFork idmapHelper options (.parentOf childPid)).wp (tracing linux)
      (StopsAnswered childPid)
      (fun o log => StopsDone childPid log ∧
        ParentEnded childPid AttachError.pty EarlyError ReadyReceived o log) [] := by
  rw [attachAfterFork, Program.bind_eq, Program.wp_bind, Program.wp_attempt]
  refine Program.wp_post (attachParentBranch_wp unreported_nil) fun o log ho => ?_
  obtain ⟨hdone, hended⟩ := attachEnded_done ho
  cases o with
  | value never => exact nomatch never
  | error e =>
      rw [Outcome.attempt, Outcome.andThen_value, Program.bind_eq]
      refine Program.wp_seq (dropHelper_wp idmapHelper hdone) fun o' log' ho' => ?_
      obtain ⟨rfl, seg, rfl, hseg⟩ := ho'
      refine ⟨hdone.append fun sig hmem => ?_, hended.append hseg⟩
      cases hseg _ hmem
  | halted h => exact ⟨hdone, hended⟩

theorem execAfterFork_wp (opts : ExecOptions) (processStatus : ProcStatus)
    (ptyMaster : Option Fd) :
    (ExecCommand.afterFork opts processStatus ptyMaster (.parentOf childPid)).wp (tracing linux)
      (StopsAnswered childPid)
      (fun o log => StopsDone childPid log ∧
        ParentEnded childPid ExecError.pty (fun _ _ => False) (fun _ => True) o log) [] := by
  refine Program.wp_post (execParentBranch_wp unreported_nil ptyMaster) fun o log ho => ?_
  cases ho with
  | supervised hwaited =>
      obtain ⟨hdone, last, hended, hlast, -⟩ := supervised_done hwaited
      exact ⟨hdone, .supervised trivial hended hlast⟩

/-- The parent of `attach` has closed the child's end when it receives. -/
theorem attachAfterFork_closed (idmapHelper : Option IdmapHelper) (options : ChildOptions) :
    (attachAfterFork idmapHelper options (.parentOf childPid)).wp (tracing linux)
      ReceivesClosed (fun _ _ => True) [] := by
  refine ⟨fun length h => (by cases h), fun _ log hlog => ?_⟩
  apply Program.wp_of_runs
  · intro _ _ _
    trivial
  · intro c log' issue length _
    refine issue.invariant (I := fun log => ⟨.dropSocket .child, ()⟩ ∈ log) ?_ ?_
    · intro log₁ c r log₂ hcall hmem
      rw [hcall]
      exact List.mem_append_left _ hmem
    · rw [hlog]
      simp

theorem attachAfterFork_once (idmapHelper : Option IdmapHelper) (options : ChildOptions) :
    (attachAfterFork idmapHelper options (.parentOf childPid)).wp (tracing linux)
      (WaitsOnce childPid) (fun _ _ => True) [] := by
  rw [attachAfterFork, Program.bind_eq, Program.wp_bind, Program.wp_attempt]
  refine Program.wp_post attachParentBranch_once fun o log _ => ?_
  have hdrop : (dropHelper idmapHelper).Within Drops fun _ => True := by
    cases idmapHelper with
    | none => trivial
    | some helper => exact ⟨trivial, fun _ => ⟨rfl, fun _ => trivial⟩⟩
  cases o with
  | value never => exact nomatch never
  | halted h => trivial
  | error e =>
      have hframe := hdrop.wp (K := tracing linux) (G := WaitsOnce childPid) (I := fun _ => True)
        (s := log) (fun _ c _ hc heq => (by subst heq; cases hc)) (fun _ _ _ _ _ _ _ => trivial)
        trivial
      exact Program.wp_seq hframe fun o _ _ => (by cases o <;> trivial)

theorem attachAfterFork_terminates {ε : Type} {child : Sys ε Empty}
    (idmapHelper : Option IdmapHelper) (options : ChildOptions) (s : World × Nat) :
    (attachAfterFork idmapHelper options (.parentOf childPid)).Terminates
      (settling childPid child) s := by
  have hmanage : ∀ message s, (AttachParent.manageChild childPid message).Terminates
      (settling childPid child) s := by
    intro message s
    rw [AttachParent.manageChild]
    split
    · trivial
    · cases message.2 with
      | nil => exact (waitForChild_terminates childPid).mapError
      | cons ptyFd _ => exact (forwardPtyAndWait_terminates ptyFd childPid).mapError
  have hrun : (AttachParent.parentBranch childPid).Terminates (settling childPid child) s := by
    intro _ s _
    exact (receive_terminates 1).mapError.bind hmanage
  refine hrun.attempt.bind fun res s => ?_
  have hdrop : (dropHelper idmapHelper).Terminates (settling childPid child) s := by
    cases idmapHelper with
    | none => trivial
    | some helper => exact fun _ _ _ _ _ _ => trivial
  exact hdrop.bind fun _ _ => (by cases res <;> trivial)

theorem execAfterFork_terminates {ε : Type} {child : Sys ε Empty} (opts : ExecOptions)
    (processStatus : ProcStatus) (ptyMaster : Option Fd) (s : World × Nat) :
    (ExecCommand.afterFork opts processStatus ptyMaster (.parentOf childPid)).Terminates
      (settling childPid child) s := by
  cases ptyMaster with
  | none => exact (waitForChild_terminates childPid).mapError
  | some pty => exact (forwardPtyAndWait_terminates pty childPid).mapError

def Unreceiving : Syscall → Prop
  | .recvmsg _ => False
  | _ => True

/-- The parent of `exec` receives nothing. -/
theorem execAfterFork_closed (opts : ExecOptions) (processStatus : ProcStatus)
    (ptyMaster : Option Fd) :
    (ExecCommand.afterFork opts processStatus ptyMaster (.parentOf childPid)).wp (tracing linux)
      ReceivesClosed (fun _ _ => True) [] := by
  have hwait : (waitForChild childPid).Within Unreceiving fun _ => True :=
    (waitForChild_waits childPid).mono (fun c hc => by cases c <;> trivial) fun _ _ => trivial
  have hforward : ∀ pty, (forward pty).Within Unreceiving fun _ => True := fun pty =>
    (forward_forwards trivial pty).mono (fun c hc => by cases c <;> trivial) fun _ => id
  have hbranch : (ExecCommand.parentBranch ptyMaster childPid).Within Unreceiving
      fun _ => True := by
    cases ptyMaster with
    | none => exact hwait.mapError
    | some pty => exact ((hforward pty).attempt.bind fun _ => hwait).mapError
  have hframe := hbranch.wp (K := tracing linux) (G := ReceivesClosed) (I := fun _ => True)
    (s := []) (fun _ c _ hc length heq => (by subst heq; exact hc.elim))
    (fun _ _ _ _ _ _ _ => trivial) trivial
  exact Program.wp_post hframe fun _ _ _ => trivial

theorem attachAfterFork_child_reports (idmapHelper : Option IdmapHelper)
    (options : ChildOptions) : Reports (attachAfterFork idmapHelper options .child) := by
  refine (attachChildBranch_reports options).attempt.bind fun res => ?_
  exact (reports_of_still (dropHelper_still idmapHelper)).bind fun _ =>
    (Program.within_ofExcept _ res).mpr trivial

theorem attach_followsChild (childPid : Pid) (idmapHelper : Option IdmapHelper)
    (options : ChildOptions) :
    FollowsChild childPid (attachAfterFork idmapHelper options)
      (fun status => .pty (.unexpectedWaitEvent status)) ReadyReceived := by
  apply followsChild_of_wp (attachAfterFork_child_reports idmapHelper options)
    (attachAfterFork_wp idmapHelper options)
  · intro e e' h
    exact AttachError.pty.inj h
  · rintro e log status (⟨errno, rfl, -⟩ | ⟨rfl, -⟩) h <;> cases h
  · rintro e log (⟨errno, -, -, -, hnone⟩ | ⟨-, message, hother, honly⟩) ⟨message', hmem, hready⟩
    · exact hnone message' hmem
    · rw [(honly message').mp hmem] at hready
      exact hother hready
  · exact attachAfterFork_terminates idmapHelper options
  · exact Program.wp_guards (attachAfterFork_once idmapHelper options)
      (attachAfterFork_closed idmapHelper options)

theorem exec_followsChild (childPid : Pid) (opts : ExecOptions) (processStatus : ProcStatus)
    (ptyMaster : Option Fd) :
    FollowsChild childPid (ExecCommand.afterFork opts processStatus ptyMaster)
      (fun status => .pty (.unexpectedWaitEvent status)) fun _ => True := by
  apply followsChild_of_wp (execChildBranch_reports opts processStatus ptyMaster)
    (execAfterFork_wp opts processStatus ptyMaster)
  · intro e e' h
    exact ExecError.pty.inj h
  · intro e log status h
    exact h.elim
  · intro e log h
    exact h.elim
  · exact execAfterFork_terminates opts processStatus ptyMaster
  · exact Program.wp_guards (execParentBranch_once ptyMaster)
      (execAfterFork_closed opts processStatus ptyMaster)

theorem dead_steps {ε : Type} {child : Sys ε Empty} {w w' : World} (hdead : w.life ≠ .alive)
    (steps : Relation.ReflTransGen (ChildStep child) w w') : w' = w := by
  induction steps with
  | refl => rfl
  | tail _ step ih =>
      subst ih
      cases step <;> exact absurd (by assumption) hdead

theorem queue_of_unready {w : World} (h : Consistent childPid w) (hunready : Unready w) :
    w.queue = [] := by
  apply List.eq_nil_iff_forall_not_mem.mpr
  intro message hmem
  obtain ⟨files, hsent⟩ := h.queued message hmem
  have hcall : message.1 = ascii "R" := h.calls _ hsent
  rw [hcall] at hsent
  exact hunready files hsent

theorem not_ready_of_unready {childPid : Pid} {w : World} (h : Consistent childPid w)
    (hunready : Unready w) : ¬ReadyReceived w.parentLog := by
  rintro ⟨message, hmem, hhead⟩
  rcases h.received 1 message hmem with hempty | ⟨whole, files, hsent, -⟩
  · rw [hempty] at hhead
    cases hhead
  · have hcall : whole = ascii "R" := h.calls _ hsent
    rw [hcall] at hsent
    exact hunready files hsent

theorem answer_of_closed {ε : Type} {childPid : Pid} {child : Sys ε Empty} {w w' : World}
    (hclosed : w.Closed) (hdead : w.life ≠ .alive) {r : Except Errno (Bytes × List Fd)}
    (step : beside childPid child w (.recvmsg 1) r w') :
    r = .ok ([], []) ∨ r = .error .again ∨ r = .error .intr := by
  obtain ⟨w₁, w₂, steps, answer, -⟩ := step
  obtain rfl := dead_steps hdead steps
  cases answer with
  | message length queued same =>
      rw [hclosed.1] at queued
      cases queued
  | endOfFile length closed => exact .inl rfl
  | receiveError length transient =>
      rcases transient hclosed with rfl | rfl
      · exact .inr (.inl rfl)
      · exact .inr (.inr rfl)
  | other r unrelated => exact unrelated.elim

theorem attach_noticesFailure (childPid : Pid) (idmapHelper : Option IdmapHelper)
    (options : ChildOptions) :
    NoticesFailure childPid (attachAfterFork idmapHelper options) := by
  have hchild := attachAfterFork_child_reports idmapHelper options
  have hnotReady : ∀ o w, (attachAfterFork idmapHelper options (.parentOf childPid)).Runs
      (beside childPid (attachAfterFork idmapHelper options .child)) World.forked o w →
      Unready w →
      (∀ e, ⟨.recvmsg 1, .error e⟩ ∈ w.parentLog → e = .again ∨ e = .intr) →
      o = .error .childNotReady := by
    intro o w run hunready hsoft
    obtain ⟨hw, -, hended⟩ := runs_end hchild (attachAfterFork_wp idmapHelper options) run
    cases hended with
    | early reason =>
        rcases reason with ⟨errno, rfl, hhard, hmem, -⟩ | ⟨rfl, -⟩
        · exact absurd (hsoft errno hmem) hhard
        · rfl
    | supervised ready ended last_mem =>
        exact absurd ready (not_ready_of_unready hw hunready)
  refine ⟨hnotReady, ?_, ?_⟩
  · intro w issue hunready hdead
    have hw : Consistent childPid w := issue.invariant
      (fun _ _ _ _ step h => h.beside hchild step) (consistent_forked childPid)
    have hdropped :=
      (issues_traced issue).of_wp (attachAfterFork_closed idmapHelper options) 1 rfl
    have hclosed : w.Closed :=
      ⟨queue_of_unready hw hunready, hw.dropped hdropped, fun halive => absurd halive hdead⟩
    constructor
    · exact ⟨_, w, w, .refl, .endOfFile 1 hclosed, rfl⟩
    · exact fun r w' step => answer_of_closed hclosed hdead step
  · refine ensures_of_runs (Q := fun o w => Unready w → o = .error .childNotReady) hchild
      (attachAfterFork_terminates idmapHelper options)
      (Program.wp_guards (attachAfterFork_once idmapHelper options)
        (attachAfterFork_closed idmapHelper options)) fun o w run hsoft hunready => ?_
    refine hnotReady o w run hunready fun e hmem => ?_
    by_contra hne
    exact hsoft _ hmem hne

/-- The parent of `attach`, and that of `exec`, ends as its child does. -/
theorem parent_followsChild (childPid : Pid) :
    (∀ idmapHelper options,
      FollowsChild childPid (attachAfterFork idmapHelper options)
        (fun status => .pty (.unexpectedWaitEvent status)) ReadyReceived ∧
      NoticesFailure childPid (attachAfterFork idmapHelper options)) ∧
    ∀ opts processStatus ptyMaster,
      FollowsChild childPid (ExecCommand.afterFork opts processStatus ptyMaster)
        (fun status => .pty (.unexpectedWaitEvent status)) fun _ => True :=
  ⟨fun idmapHelper options => ⟨attach_followsChild childPid idmapHelper options,
    attach_noticesFailure childPid idmapHelper options⟩, exec_followsChild childPid⟩

end Programs

/-- A child that has done nothing yet can do what it does in any of its runs. -/
theorem childSteps_of_run {ε : Type} {child : Sys ε Empty} {w : World} (halive : w.life = .alive)
    (hunexecuted : w.executed = false) (hfresh : w.childLog = []) {o : Outcome Halt ε Empty}
    {log : Log} (run : child.Runs (tracing linux) [] o log) {before after : Log}
    (hlog : log = before ++ after) :
    Relation.ReflTransGen (ChildStep child) w
      { w with childLog := before, queue := w.queue ++ before.flatMap sentBy } := by
  induction before using List.reverseRecOn generalizing after with
  | nil =>
      have hsame : { w with childLog := [], queue := w.queue ++ [].flatMap sentBy } = w := by
        rw [List.flatMap_nil, List.append_nil, ← hfresh]
      rw [hsame]
  | append_singleton before ev ih =>
      obtain ⟨c, r⟩ := ev
      rw [List.append_assoc, List.singleton_append] at hlog
      have issue : child.Issues (tracing linux) [] c before :=
        ForkingPrograms.issues_of_runs run before after hlog
      have hstep := (ih hlog).tail (.call r halive hunexecuted issue)
      simpa only [List.flatMap_append, List.flatMap_singleton, List.append_assoc] using hstep

def plainOptions : ChildOptions where
  command := none
  arguments := []
  processStatus := plainStatus
  usernsFd := none
  effectiveHome := none

/-- The parent that is answered like this by the world ends with what its child ended with. -/
theorem attach_runs_of_exit {child : Sys AttachError Empty} {w₀ w₁ w₂ w₃ : World} {code : UInt8}
    (dropped : beside somePid child w₀ (.dropSocket .child) () w₁)
    (received : beside somePid child w₁ (.recvmsg 1) (.ok (ascii "R", [])) w₂)
    (reaped : beside somePid child w₂ (.waitpid somePid true) (.ok (some (.exited code))) w₃) :
    (attachAfterFork none plainOptions (.parentOf somePid)).Runs (beside somePid child) w₀
      (.halted (.exited code.toNat)) w₃ := by
  have hreceive : (receive 1).Runs (beside somePid child) w₁ (.value (ascii "R", [])) w₂ :=
    .leave (.ask received (.stop _ _)) (.stop _ _)
  have hwait : (waitForChild somePid).Runs (beside somePid child) w₂
      (.halted (.exited code.toNat)) w₃ := .loopHalted (.ask reaped (.stop _ _))
  have hbranch : (AttachParent.parentBranch somePid).Runs (beside somePid child) w₀
      (.halted (.exited code.toNat)) w₃ := .ask dropped (hreceive.mapError.bind hwait.mapError)
  exact hbranch.attempt.bind_halted

theorem attach_runs_of_endOfFile {child : Sys AttachError Empty} {w₀ w₁ w₂ : World}
    (dropped : beside somePid child w₀ (.dropSocket .child) () w₁)
    (received : beside somePid child w₁ (.recvmsg 1) (.ok ([], [])) w₂) :
    (attachAfterFork none plainOptions (.parentOf somePid)).Runs (beside somePid child) w₀
      (.error .childNotReady) w₂ := by
  have hreceive : (receive 1).Runs (beside somePid child) w₁ (.value ([], [])) w₂ :=
    .leave (.ask received (.stop _ _)) (.stop _ _)
  have hbranch : (AttachParent.parentBranch somePid).Runs (beside somePid child) w₀
      (.error .childNotReady) w₂ := .ask dropped (hreceive.mapError.bind (.stop _ _))
  exact hbranch.attempt.bind (.stop _ _)

/-- The parent has closed the child's end of the socket. -/
def droppedWorld : World :=
  { World.forked with parentLog := [⟨.dropSocket .child, ()⟩], parentHoldsChildEnd := false }

/-- The child has sent its message and is the command now. -/
def readyWorld (childLog : Log) : World :=
  { droppedWorld with childLog := childLog, queue := [(ascii "R", [])], executed := true }

def receivedWorld (childLog : Log) : World :=
  { readyWorld childLog with
    parentLog := droppedWorld.parentLog ++ [⟨.recvmsg 1, .ok (ascii "R", [])⟩]
    queue := [] }

def exitedWorld (childLog : Log) (code : UInt8) : World :=
  { receivedWorld childLog with
    parentLog := (receivedWorld childLog).parentLog ++
      [⟨.waitpid somePid true, .ok (some (.exited code))⟩]
    life := .reaped (.exited code) }

/-- The child of `attach` reports that it is ready, executes the command, and the command exits
with 3; a child that is killed at once does not get ready; and with as many as five
interruptions, stops and polls there is an end that follows the child. -/
theorem attach_followsChild_ready :
    (∃ w, (attachAfterFork none plainOptions (.parentOf somePid)).Runs
        (beside somePid (attachAfterFork none plainOptions .child)) World.forked
        (.halted (.exited 3)) w ∧
      ReadyReceived w.parentLog ∧ w.executed = true ∧
      ∃ status, w.life = .reaped status ∧
        Propagates (.halted (.exited 3) : Outcome Halt AttachError Empty) status) ∧
    (∃ o w, (attachAfterFork none plainOptions (.parentOf somePid)).Runs
        (beside somePid (attachAfterFork none plainOptions .child)) World.forked o w ∧
      Unready w ∧ o = .error .childNotReady) ∧
    ∃ o s, (attachAfterFork none plainOptions (.parentOf somePid)).Runs
        (settling somePid (attachAfterFork none plainOptions .child)) (World.forked, 5) o s ∧
      (ReadyReceived s.1.parentLog →
        ∃ status, s.1.life = .reaped status ∧ Propagates o status) := by
  have hplay : ((attachAfterFork none plainOptions .child).replay willing 8 []).any (fun r =>
      decide (r.1 = .halted .executed) && decide (r.2.flatMap sentBy = [(ascii "R", [])])) =
      true := by
    decide +kernel
  obtain ⟨⟨o, log⟩, hreplay, hend⟩ := (Option.any_eq_true _ _).mp hplay
  rw [Bool.and_eq_true, decide_eq_true_eq, decide_eq_true_eq] at hend
  obtain ⟨rfl, hsent⟩ := hend
  have hchild := Program.Runs.of_replay willing 8 hreplay
  obtain ⟨hfollows, hnotices⟩ := (parent_followsChild somePid).1 none plainOptions
  have hdropped : beside somePid (attachAfterFork none plainOptions .child) World.forked
      (.dropSocket .child) () droppedWorld := ⟨_, _, .refl, .closed _, rfl⟩
  refine ⟨?_, ?_, (hfollows.completes 5).exists_runs⟩
  · have hready : ReadyReceived (exitedWorld log 3).parentLog :=
      ⟨(ascii "R", []), by simp [exitedWorld, receivedWorld], rfl⟩
    have hreceived : beside somePid (attachAfterFork none plainOptions .child) droppedWorld
        (.recvmsg 1) (.ok (ascii "R", [])) (receivedWorld log) := by
      have hsteps := childSteps_of_run (w := droppedWorld) rfl rfl rfl hchild
        (List.append_nil log).symm
      have hqueue : droppedWorld.queue ++ log.flatMap sentBy = [(ascii "R", [])] := hsent
      rw [hqueue] at hsteps
      have hexecutes : Relation.ReflTransGen (ChildStep (attachAfterFork none plainOptions .child))
          droppedWorld (readyWorld log) := hsteps.tail (.execute rfl rfl hchild)
      have hanswer : Answers somePid (readyWorld log) (.recvmsg 1) (.ok (ascii "R", []))
          { readyWorld log with queue := [] } :=
        @Answers.message somePid (readyWorld log) (ascii "R", []) [] [] 1 rfl rfl
      exact ⟨_, _, hexecutes, hanswer, rfl⟩
    have hexits : ChildStep (attachAfterFork none plainOptions .child) (receivedWorld log)
        { receivedWorld log with life := .zombie (.exited 3) } := .command rfl rfl trivial
    have hreaped : beside somePid (attachAfterFork none plainOptions .child) (receivedWorld log)
        (.waitpid somePid true) (.ok (some (.exited 3))) (exitedWorld log 3) :=
      ⟨_, _, .single hexits, .ended true rfl, rfl⟩
    have hrun := attach_runs_of_exit hdropped hreceived hreaped
    refine ⟨_, hrun, hready, rfl, hfollows.propagates _ _ hrun hready fun e hmem => ?_⟩
    simp [exitedWorld, receivedWorld, droppedWorld] at hmem
  · have hreceived : beside somePid (attachAfterFork none plainOptions .child) droppedWorld
        (.recvmsg 1) (.ok ([], [])) { droppedWorld with
          parentLog := droppedWorld.parentLog ++ [⟨.recvmsg 1, .ok ([], [])⟩]
          life := .zombie (.signaled .kill) } :=
      ⟨_, _, .single (.killed .kill rfl), .endOfFile 1 ⟨rfl, rfl, fun h => (by cases h)⟩, rfl⟩
    have hrun := attach_runs_of_endOfFile hdropped hreceived
    have hunready : Unready { droppedWorld with
        parentLog := droppedWorld.parentLog ++ [⟨.recvmsg 1, .ok ([], [])⟩]
        life := .zombie (.signaled .kill) } := fun files => List.not_mem_nil
    refine ⟨_, _, hrun, hunready, hnotices.not_ready _ _ hrun hunready fun e hmem => ?_⟩
    simp [droppedWorld] at hmem

end Cntr.ExitPropagation
