import Cntr.AttachParent
import Cntr.ExecCommand

/-!
Which calls the parts of the program make: those that only shuffle terminal
data, and those that do not change what the process is confined to.
-/

namespace Cntr.CallsMade

open Cntr.ByteText
open Cntr.CallTree
open Cntr.SystemCalls
open Cntr.AttachChild
open Cntr.CgroupManagers
open Cntr.CommandExecution
open Cntr.FilePairBuffer
open Cntr.IdmapHelperProcess
open Cntr.NamespaceFiles
open Cntr.PtySession
open Cntr.ShovelLoop
open Cntr.WholeWrites

/-- The calls by which bytes pass through a pair. -/
def Transfers : Syscall → Prop
  | .read _ _ | .write _ _ => True
  | _ => False

def Shovels : Syscall → Prop
  | .read _ _ | .write _ _ | .poll _ _ | .tcgetwinsize _ | .tcsetwinsize _ _ => True
  | _ => False

def Forwards : Syscall → Prop
  | .isatty _ | .dup _ | .tcgetattr _ | .tcsetattr _ _ _ => True
  | c => Shovels c

section Forwards

variable {ε : Type} {halts : Halt → Prop}

theorem write_transfers (hpanic : halts .panicked) (pair : FilePair) :
    (pair.write (ε := ε)).Within Transfers halts := by
  rw [FilePair.write]
  cases pair.buf.slice pair.writeOffset pair.readOffset with
  | none => exact hpanic
  | some slice =>
      refine ⟨trivial, ?_⟩
      rintro (e | written) <;> trivial

theorem transfer_transfers (hpanic : halts .panicked) (pair : FilePair) :
    (transfer (ε := ε) pair).Within Transfers halts := by
  rw [transfer]
  cases pair.state with
  | write => exact write_transfers hpanic pair
  | read =>
      refine ⟨trivial, ?_⟩
      rintro (e | data)
      · trivial
      · exact write_transfers hpanic _

theorem serve_transfers (hpanic : halts .panicked) (pairs : List FilePair)
    (ready : List Bool) : (serve (ε := ε) pairs ready).Within Transfers halts := by
  induction pairs generalizing ready with
  | nil => trivial
  | cons pair pairs ih =>
      cases ready with
      | nil => trivial
      | cons first rest =>
          have hrest : ∀ pair : FilePair, ((serve (ε := ε) pairs rest).bind fun x =>
              .done (x.1, pair :: x.2)).Within Transfers halts := fun pair =>
            (ih rest).bind fun _ => trivial
          cases first with
          | false => exact hrest pair
          | true =>
              refine (transfer_transfers hpanic pair).bind ?_
              rintro ⟨more, pair⟩
              cases more with
              | false => trivial
              | true => exact hrest pair

theorem shovels_of_transfers {c : Syscall} (h : Transfers c) : Shovels c := by
  cases c <;> trivial

@[simp] theorem getWinsize_shovels : (getWinsize (ε := ε)).Within Shovels halts := by
  refine ⟨trivial, ?_⟩
  rintro (e | ws) <;> trivial

@[simp] theorem setWinsize_shovels (pty : Fd) (ws : Winsize) :
    (setWinsize (ε := ε) pty ws).Within Shovels halts :=
  ⟨trivial, fun _ => trivial⟩

theorem checkWinsize_shovels (resize : Option Fd) (last : Option Winsize) :
    (checkWinsize (ε := ε) resize last).Within Shovels halts := by
  cases resize with
  | none => trivial
  | some pty =>
      cases last with
      | none => trivial
      | some last =>
          rw [checkWinsize]
          refine getWinsize_shovels.bind fun current => ?_
          split
          · exact (setWinsize_shovels _ _).bind fun _ => trivial
          · trivial

theorem shovel_shovels (hpanic : halts .panicked) (pairs : List FilePair)
    (resize : Option Fd) : (shovel (ε := ε) pairs resize).Within Shovels halts := by
  rw [shovel]
  refine Program.Within.bind ?_ fun last => ⟨fun st => ?_, fun _ => trivial⟩
  · cases resize with
    | none => trivial
    | some pty =>
        refine getWinsize_shovels.bind fun ws => ?_
        exact (setWinsize_shovels pty ws).bind fun _ => trivial
  · refine ⟨trivial, ?_⟩
    rintro (e | revents)
    · by_cases he : e = .intr <;> simp [he]
    · refine (checkWinsize_shovels _ _).bind fun last =>
        ((serve_transfers hpanic _ _).mono (fun _ => shovels_of_transfers) fun _ h => h).bind ?_
      rintro ⟨more, pairs⟩
      cases more <;> trivial

theorem newRawTty_forwards (isTty : Bool) : (newRawTty isTty).Within Forwards halts := by
  cases isTty with
  | false => trivial
  | true =>
      refine Program.Within.bind ⟨trivial, ?_⟩ fun _ => trivial
      rintro (e | attr)
      · trivial
      · exact ⟨trivial, fun r => (by cases r <;> trivial)⟩

theorem rawTtyDrop_forwards (rawTty : Option Termios) :
    (RawTty.drop rawTty).Within Forwards halts := by
  cases rawTty with
  | none => trivial
  | some attr => exact ⟨trivial, fun _ => trivial⟩

theorem forwardFiles_forwards (hpanic : halts .panicked) (pty : Fd) (isTty : Bool) :
    (forwardFiles pty isTty).Within Forwards halts := by
  have hdup : ∀ what fd, (dupFd what fd).Within Forwards halts := fun what fd =>
    ⟨trivial, fun r => (Program.within_ofExcept _ r).mpr trivial⟩
  have hshovel : ∀ pairs resize, (shovel (ε := PtyError) pairs resize).Within Forwards halts :=
    fun pairs resize => (shovel_shovels hpanic pairs resize).mono
      (fun c hc => by cases c <;> trivial) fun _ => id
  exact (hdup _ _).bind fun _ => (hdup _ _).bind fun _ => (hdup _ _).bind fun _ => hshovel _ _

theorem forward_forwards (hpanic : halts .panicked) (pty : Fd) :
    (forward pty).Within Forwards halts := by
  refine ⟨trivial, fun isTty => ?_⟩
  refine (newRawTty_forwards isTty).bind fun rawTty => ?_
  refine (forwardFiles_forwards hpanic pty isTty).attempt.bind fun res => ?_
  exact (rawTtyDrop_forwards rawTty).bind fun _ => (Program.within_ofExcept _ res).mpr trivial

end Forwards

def Waits : Syscall → Prop
  | .waitpid _ untraced => untraced = true
  | .kill _ sig => sig = .cont
  | .raise _ => True
  | _ => False

def Supervises : Syscall → Prop
  | .dropSocket _ | .recvmsg _ => True
  | c => Forwards c ∨ Waits c

section Supervises

variable {ε : Type}

theorem supervises_of_forwards {c : Syscall} (h : Forwards c) : Supervises c := by
  cases c <;> first | trivial | exact .inl h

theorem supervises_of_waits {c : Syscall} (h : Waits c) : Supervises c := by
  cases c <;> first | trivial | exact .inr h

theorem raise_waits (sig : Signal) :
    (raise (ε := ε) sig).Within Waits fun h => h ≠ .executed := by
  refine ⟨trivial, ?_⟩
  rintro (_ | _)
  · exact fun h => by cases h
  · trivial

theorem handleStatus_waits (childPid : Pid) (status : WaitStatus) :
    (handleStatus childPid status).Within Waits fun h => h ≠ .executed := by
  cases status with
  | exited code => exact fun h => by cases h
  | signaled sig =>
      refine Program.Within.bind ?_ fun _ h => by cases h
      rw [raiseNamed]
      cases Signal.fromNamedRaw sig.raw with
      | none => trivial
      | some signal => exact raise_waits signal
  | stopped sig => exact ⟨trivial, fun _ => ⟨rfl, fun _ => trivial⟩⟩
  | continued => trivial

theorem waitForChild_waits (childPid : Pid) :
    (waitForChild childPid).Within Waits fun h => h ≠ .executed := by
  refine ⟨fun _ => ⟨rfl, ?_⟩, fun never => nomatch never⟩
  rintro (e | _ | status)
  · by_cases he : e = .intr <;> simp [he]
  · trivial
  · exact handleStatus_waits childPid status

theorem waitForChild_supervises (childPid : Pid) :
    (waitForChild childPid).Within Supervises fun h => h ≠ .executed :=
  (waitForChild_waits childPid).mono (fun _ => supervises_of_waits) fun _ => id

theorem forwardPtyAndWait_supervises (pty : Fd) (childPid : Pid) :
    (forwardPtyAndWait pty childPid).Within Supervises fun h => h ≠ .executed := by
  have hforward : (forward pty).Within Supervises fun h => h ≠ .executed :=
    (forward_forwards (fun h => by cases h) pty).mono (fun _ => supervises_of_forwards) fun _ => id
  exact hforward.attempt.bind fun _ => waitForChild_supervises childPid

theorem attachParentBranch_supervises (childPid : Pid) :
    (AttachParent.parentBranch childPid).Within Supervises fun h => h ≠ .executed := by
  have hreceive : (ReadySocket.receive 1).Within Supervises fun h => h ≠ .executed := by
    refine ⟨fun _ => ⟨trivial, ?_⟩, fun _ => trivial⟩
    rintro (e | message)
    · by_cases he : e = .again ∨ e = .intr <;> simp [he]
    · trivial
  refine ⟨trivial, fun _ => hreceive.mapError.bind fun message => ?_⟩
  rw [AttachParent.manageChild]
  split
  · trivial
  · cases message.2 with
    | nil => exact (waitForChild_supervises childPid).mapError
    | cons ptyFd _ => exact (forwardPtyAndWait_supervises ptyFd childPid).mapError

theorem execParentBranch_supervises (ptyMaster : Option Fd) (childPid : Pid) :
    (ExecCommand.parentBranch ptyMaster childPid).Within Supervises fun h => h ≠ .executed := by
  cases ptyMaster with
  | none => exact (waitForChild_supervises childPid).mapError
  | some pty => exact (forwardPtyAndWait_supervises pty childPid).mapError

end Supervises

/-- The calls that are no step of the confinement, whatever their answer, and do
not touch a file that is opened for writing as such, as the profile is. -/
def Quiet : Syscall → Prop
  | .setns _ _ | .unshareMount | .unshareUser => False
  | .setThreadGid _ | .setThreadUid _ | .chroot _ | .chdir _ => False
  | .sendmsg _ _ | .exec _ _ _ => False
  | .openFile _ mode | .write (.atPath _ mode) _ => mode ≠ .write
  | _ => True

/-- The calls among them that also leave alone the descriptors that a command
would inherit. -/
def Still : Syscall → Prop
  | .openTree _ _ | .openpt | .openTerminal _ | .dup _ | .dup2 _ _ => False
  | .pipe | .recvmsg _ | .closeFd _ => False
  | c => Quiet c

section Quiet

variable {ε : Type} {halts : Halt → Prop}

theorem quiet_of_still {α : Type} {p : Sys ε α} (h : p.Within Still halts) :
    p.Within Quiet halts := by
  refine h.mono (fun c hc => ?_) fun _ => id
  cases c <;> first | exact hc | exact hc.elim

@[simp] theorem getPath_still : (Procfs.getPath (ε := ε)).Within Still halts := by
  refine ⟨trivial, ?_⟩
  rintro (_ | path) <;> trivial

theorem writeAll_within {calls : Syscall → Prop} {file : File}
    (hfile : ∀ bytes, calls (.write file bytes)) (bytes : Bytes) :
    (writeAll (ε := ε) file bytes).Within calls halts := by
  refine ⟨fun rest => ?_, fun _ => trivial⟩
  cases rest with
  | nil => trivial
  | cons b rest =>
      refine ⟨hfile _, ?_⟩
      rintro (e | written)
      · by_cases he : e = .interrupted <;> simp [he]
      · by_cases hzero : written = 0 <;> simp [hzero]

@[simp] theorem openReader_still (path : Path) : (openReader path).Within Still halts := by
  refine ⟨trivial, ?_⟩
  rintro (e | items) <;> trivial

@[simp] theorem readLines_still (path : Path) : (readLines path).Within Still halts := by
  simp [readLines]

theorem v1MoveTo_still (manager : CgroupV1Manager) (pid targetPid : Pid) :
    (manager.moveTo pid targetPid).Within Still halts := by
  have hwritePid : ∀ path, (CgroupV1Manager.writePid path pid).Within Still halts := by
    intro path
    refine (writeAll_within (fun _ => by simp [Still, Quiet]) _).bind ?_
    rintro (e | _) <;> trivial
  have henter : ∀ mountpoints cgroup,
      (CgroupV1Manager.enter pid mountpoints cgroup).Within Still halts := by
    intro mountpoints cgroup
    rw [CgroupV1Manager.enter]
    cases cgroupV1Path cgroup mountpoints with
    | none => trivial
    | some path =>
        refine ⟨by simp [Still, Quiet], ?_⟩
        rintro (e | _)
        · trivial
        · exact hwritePid path
  have hread : ∀ {α : Type} (path : Path) (f : List Bytes → α),
      ((readLines path).bind fun lines => .done (f lines)).Within Still halts := fun path f =>
    (readLines_still path).bind fun _ => trivial
  refine (hread _ _).bind fun cgroups => ?_
  refine Program.Within.bind ?_ fun mountpoints => .forEach (henter mountpoints) cgroups
  exact (hread _ _).bind fun subsystems => hread _ _

theorem v2MoveTo_still (manager : CgroupV2Manager) (pid targetPid : Pid) :
    (manager.moveTo pid targetPid).Within Still halts := by
  have htry : ∀ path, (CgroupV2Manager.tryWrite pid path).Within Still halts := by
    intro path
    refine ⟨by simp [Still, Quiet], ?_⟩
    rintro (e | _)
    · trivial
    · exact (writeAll_within (fun _ => by simp [Still, Quiet]) _).bind fun _ => trivial
  rw [CgroupV2Manager.moveTo]
  refine ((openReader_still _).bind fun items =>
    (Program.within_ofExcept _ _).mpr trivial).bind ?_
  rintro (_ | cgroupPath)
  · trivial
  · exact htry _

@[simp] theorem moveTo_still (pid targetPid : Pid) :
    (CgroupManagers.moveTo pid targetPid).Within Still halts := by
  have hmanager : ∀ manager : CgroupManager,
      (manager.moveTo pid targetPid).Within Still halts := by
    intro manager
    cases manager with
    | v1 manager => exact v1MoveTo_still manager pid targetPid
    | v2 manager => exact v2MoveTo_still manager pid targetPid
    | hybrid manager =>
        refine (v2MoveTo_still manager.v2 pid targetPid).attempt.bind ?_
        rintro (e | _)
        · exact v1MoveTo_still manager.v1 pid targetPid
        · trivial
    | null => trivial
  have hcreate : createManager.Within Still halts := by
    refine (readLines_still _).bind fun lines => getPath_still.bind fun procfsPath => ?_
    trivial
  exact hcreate.bind hmanager

theorem readEnvironment_still (pid : Pid) : (readEnvironment pid).Within Still halts := by
  refine getPath_still.bind fun procfsPath => .check (by simp [Still, Quiet]) fun _ => ?_
  refine ⟨fun vars => ⟨trivial, ?_⟩, fun _ => trivial⟩
  rintro (e | _ | var) <;> trivial

@[simp] theorem commandOrShell_still (command : Option Bytes) :
    (commandOrShell command).Within Still halts := by
  cases command with
  | some command => trivial
  | none =>
      refine ⟨trivial, ?_⟩
      rintro (_ | value) <;> trivial

@[simp] theorem cmdNew_still (command : Option Bytes) (args : List Bytes) (pid : Pid)
    (home : Option Path) : (Cmd.new command args pid home).Within Still halts := by
  refine (commandOrShell_still command).bind fun command => ?_
  refine (readEnvironment_still pid).bind fun vars => ?_
  exact .check trivial fun _ => trivial

@[simp] theorem supportedNamespaces_still : supportedNamespaces.Within Still halts :=
  .check trivial fun _ => (Program.within_ofExcept _ _).mpr trivial

@[simp] theorem openKind_still (kind : Kind) (pid : Pid) :
    (openKind kind pid).Within Still halts :=
  getPath_still.bind fun _ => .check trivial fun _ => trivial

@[simp] theorem isSame_still (kind : Kind) (pid : Pid) :
    (isSame (ε := ε) kind pid).Within Still halts := by
  refine getPath_still.bind fun _ => ⟨trivial, ?_⟩
  rintro (e | dest)
  · trivial
  · refine ⟨trivial, ?_⟩
    rintro (e | dest2) <;> trivial

/-- Both loops open a namespace if it is supported and another one. -/
theorem openIfOther_still {β : Type} (supported : List Bytes) (kind : Kind) (pid : Pid)
    (skipped : β) (opened : NamespaceFiles.Namespace → β) (f : NamespaceError → ε) :
    ((if kind.name ∉ supported then return skipped
      else do
        if ← isSame kind pid then return skipped
        else
          let ns ← (openKind kind pid).mapError f
          return opened ns) : Sys ε β).Within Still halts := by
  split
  · trivial
  · refine (isSame_still kind pid).bind fun same => ?_
    cases same with
    | true => trivial
    | false => exact (openKind_still kind pid).mapError.bind fun _ => trivial

theorem attachOpenOthers_still (containerPid : Pid) (supported : List Bytes)
    (opened : List NamespaceFiles.Namespace) (kinds : List Kind) :
    (AttachChild.openOthers containerPid supported opened kinds).Within Still halts := by
  induction kinds generalizing opened with
  | nil => trivial
  | cons kind kinds ih =>
      exact (openIfOther_still supported kind containerPid opened
        (fun ns => opened ++ [ns]) _).bind ih

theorem execOpenOthers_still (containerPid : Pid) (supported : List Bytes)
    (opened : ContainerSetup.OpenedNamespaces) (kinds : List Kind) :
    (ContainerSetup.openOthers containerPid supported opened kinds).Within Still halts := by
  induction kinds generalizing opened with
  | nil => trivial
  | cons kind kinds ih =>
      exact (openIfOther_still supported kind containerPid opened
        (fun ns => ⟨opened.otherNamespaces ++ [ns], opened.userNsEntered || kind = .user⟩) _).bind
          ih

theorem envVar_still (key : Bytes) : (envVar (ε := ε) key).Within Still halts :=
  ⟨trivial, fun _ => trivial⟩

@[simp] theorem getBaseDir_still : (getBaseDir (ε := ε)).Within Still halts := by
  have huser : (userBaseDir (ε := ε)).Within Still halts := by
    refine (envVar_still _).bind ?_
    rintro (_ | runtimeDir)
    · refine (envVar_still _).bind ?_
      rintro (_ | home) <;> trivial
    · trivial
  refine (envVar_still _).bind ?_
  rintro (_ | dir)
  · refine ⟨trivial, fun isRoot => ?_⟩
    cases isRoot with
    | true => trivial
    | false => exact huser
  · trivial

theorem idmapLine_quiet (usernsFd : NsId) (baseDir : Path) (line : Bytes) :
    (idmapLine usernsFd baseDir line).Within Quiet halts := by
  have hat : ∀ mountPoint, (idmapAt usernsFd mountPoint).Within Quiet halts := by
    intro mountPoint
    have htree : ∀ tree, (idmapTree usernsFd mountPoint tree).Within Quiet halts := by
      intro tree
      refine ⟨trivial, ?_⟩
      rintro (e | _)
      · trivial
      · exact ⟨trivial, fun _ => trivial⟩
    refine ⟨trivial, ?_⟩
    rintro (e | tree)
    · trivial
    · exact (htree tree).bind fun _ => ⟨trivial, fun _ => trivial⟩
  rw [idmapLine]
  split
  · cases idmappedMountPoint baseDir line with
    | none => trivial
    | some mountPoint => exact hat mountPoint
  · trivial

@[simp] theorem idmapMounts_quiet (usernsFd : Option NsId) (baseDir : Path) :
    (idmapMounts usernsFd baseDir).Within Quiet halts := by
  cases usernsFd with
  | none => trivial
  | some usernsFd =>
      refine .check (by simp [Quiet]) fun _ => ⟨fun _ => ⟨trivial, ?_⟩, fun _ => trivial⟩
      rintro (e | _ | line)
      · trivial
      · trivial
      · exact (idmapLine_quiet usernsFd baseDir line).bind fun _ => trivial

@[simp] theorem setupContainerTimezone_still (baseDir : Path) :
    (setupContainerTimezone baseDir).Within Still halts := by
  refine ⟨trivial, ?_⟩
  rintro (e | _)
  · trivial
  · refine ⟨trivial, ?_⟩
    rintro (e | contents)
    · trivial
    · refine ⟨trivial, ?_⟩
      rintro (e | _)
      · trivial
      · exact ⟨trivial, fun _ => trivial⟩

@[simp] theorem captureTrees_quiet (entries : List DirEntry) :
    (captureTrees entries).Within Quiet halts :=
  captureTrees_within (fun _ => trivial) (fun _ => trivial) entries

@[simp] theorem attachCaptured_quiet (baseDir : Path) (captured : CapturedTree) :
    (attachCaptured baseDir captured).Within Quiet halts := by
  have hmountPoint : ∀ target, (createMountPoint baseDir target captured.isDir).Within Quiet
      halts := fun target =>
    createMountPoint_within (fun _ => trivial) (fun _ => by simp [Quiet]) baseDir target _
  refine (hmountPoint _).bind fun created => ?_
  cases created with
  | true => exact ⟨trivial, fun _ => ⟨trivial, fun _ => trivial⟩⟩
  | false => exact ⟨trivial, fun _ => trivial⟩

@[simp] theorem awaitHelper_quiet (child : Pid) (readFd writeFd : Fd) :
    (awaitHelper child readFd writeFd).Within Quiet halts := by
  refine ⟨trivial, fun _ => .check trivial fun buf => ?_⟩
  split
  · trivial
  · exact ⟨trivial, fun _ => .check trivial fun _ => trivial⟩

/-- The helper process makes a user namespace of its own. -/
def HelperCall (c : Syscall) : Prop := Quiet c ∨ c = .unshareUser

theorem setupUserns_within (mapping : IdMapping) :
    (setupUserns mapping).Within HelperCall halts := by
  have hwrite : ∀ path contents, (writeIdMap path contents).Within HelperCall
      halts := fun path contents =>
    ⟨.inl trivial, fun r => (Program.within_ofExcept _ r).mpr trivial⟩
  refine .check (.inr rfl) fun _ => ⟨.inl trivial, fun _ => ?_⟩
  exact (hwrite _ _).bind fun _ => hwrite _ _

theorem helperProcess_within (hexit : halts (.exited 1)) (mapping : IdMapping)
    (readFd writeFd : Fd) :
    (helperProcess mapping readFd writeFd).Within HelperCall halts := by
  have hpipe : ∀ bytes, Quiet (.write (.syncPipe writeFd) bytes) := fun _ => trivial
  refine ⟨.inl trivial, fun _ => (setupUserns_within mapping).attempt.bind ?_⟩
  rintro (e | _)
  · exact hexit
  · refine ((writeAll_within hpipe _).mono (fun _ => .inl) fun _ => id).bind ?_
    rintro (e | _)
    · exact hexit
    · exact ⟨fun _ => ⟨.inl trivial, fun _ => trivial⟩, fun never => nomatch never⟩

@[simp] theorem stdioIsTty_still : (stdioIsTty (ε := ε)).Within Still halts := by
  refine ⟨trivial, fun isTty => ?_⟩
  cases isTty with
  | true => exact ⟨trivial, fun _ => trivial⟩
  | false => trivial

@[simp] theorem openPtm_quiet : openPtm.Within Quiet halts :=
  .check trivial fun _ => .check trivial fun _ => .check trivial fun _ => trivial

@[simp] theorem attachPts_quiet (ptyMaster : Fd) : (attachPts ptyMaster).Within Quiet halts := by
  refine .check trivial fun ptsName => ?_
  split
  · refine .check trivial fun _ => .check trivial fun ptySlave => ⟨trivial, fun _ => ?_⟩
    refine .check trivial fun _ => .check trivial fun _ => .check trivial fun _ => ?_
    exact ⟨trivial, fun _ => trivial⟩
  · trivial

@[simp] theorem setupPty_quiet : setupPty.Within Quiet halts := by
  refine (quiet_of_still stdioIsTty_still).bind fun isTty => ?_
  cases isTty with
  | true =>
      refine openPtm_quiet.mapError.bind fun ptyMaster => ?_
      exact (attachPts_quiet ptyMaster).mapError.bind fun _ => trivial
  | false => trivial

theorem createPty_quiet : ExecCommand.createPty.Within Quiet halts := by
  refine (quiet_of_still stdioIsTty_still).bind fun isTty => ?_
  cases isTty with
  | true => exact openPtm_quiet.mapError.bind fun _ => trivial
  | false => trivial

@[simp] theorem readContainerPath_still (containerRoot : Path) :
    (readContainerPath containerRoot).Within Still halts := by
  refine ⟨trivial, ?_⟩
  rintro (e | contents) <;> trivial

@[simp] theorem containerEnvironment_still (cmd : Cmd) :
    cmd.containerEnvironment.Within Still halts := by
  rw [Cmd.containerEnvironment]
  cases cmd.environment (ascii "PATH") with
  | some _ => trivial
  | none => exact (readContainerPath_still _).bind fun _ => trivial

@[simp] theorem drop_still (hpanic : halts .panicked) (mask : BitVec 64) (lastCap : Nat) :
    (BoundingSet.drop (ε := ε) mask lastCap).Within Still halts :=
  BoundingSet.drop_within (fun _ => trivial) hpanic mask lastCap

@[simp] theorem dropHelper_still (helper : Option IdmapHelper) :
    (AttachParent.dropHelper helper).Within Still halts := by
  cases helper with
  | none => trivial
  | some helper => exact ⟨trivial, fun _ => ⟨trivial, fun _ => trivial⟩⟩

theorem attachPtySlave_quiet (ptyMaster : Option Fd) :
    (ExecCommand.attachPtySlave ptyMaster).Within Quiet halts := by
  cases ptyMaster with
  | none => trivial
  | some ptyMaster => exact (attachPts_quiet ptyMaster).mapError

end Quiet

/-- The calls that `exec` makes to enter a container. -/
def Enters : Syscall → Prop
  | .setns _ _ | .setThreadGid _ | .setThreadUid _ => True
  | c => Still c

section Enters

variable {ε α : Type} {halts : Halt → Prop}

theorem enters_of_still {p : Sys ε α} (h : p.Within Still halts) : p.Within Enters halts := by
  refine h.mono (fun c hc => ?_) fun _ => id
  cases c <;> first | exact hc | trivial

theorem apply_enters (ns : NamespaceFiles.Namespace) : ns.apply.Within Enters halts :=
  ⟨trivial, fun r => (Program.within_ofExcept _ r).mpr trivial⟩

theorem applyAll_enters (namespaces : List NamespaceFiles.Namespace) :
    (ContainerSetup.applyAll namespaces).Within Enters halts :=
  .forEach apply_enters namespaces

theorem applySecurityContext_enters (hpanic : halts .panicked)
    (processStatus : ContainerSetup.ProcStatus) (inUserNamespace : Bool) :
    (ContainerSetup.applySecurityContext processStatus inUserNamespace).Within Enters halts := by
  have hdrop : (BoundingSet.drop processStatus.effectiveCapabilities processStatus.lastCap :
      Sys ContainerSetup.SetupError Unit).Within Enters halts :=
    enters_of_still (drop_still hpanic _ _)
  have hidentity : (ContainerSetup.setIdentity processStatus).Within Enters halts :=
    ⟨trivial, fun _ => .check trivial fun _ => ⟨trivial, fun r =>
      (Program.within_ofExcept _ r).mpr trivial⟩⟩
  cases inUserNamespace with
  | true => exact hidentity.bind fun _ => hdrop
  | false => exact hdrop

theorem enterContainer_enters (hpanic : halts .panicked)
    (processStatus : ContainerSetup.ProcStatus) :
    (ContainerSetup.enterContainer processStatus).Within Enters halts := by
  have hnamespaces :
      (ContainerSetup.enterNamespaces processStatus.globalPid).Within Enters halts := by
    refine (enters_of_still supportedNamespaces_still).mapError.bind fun supported => ?_
    split
    · trivial
    · refine (enters_of_still (openKind_still _ _)).mapError.bind fun mountNamespace => ?_
      refine (enters_of_still (execOpenOthers_still _ _ _ _)).bind fun opened => ?_
      refine (apply_enters _).mapError.bind fun _ => ?_
      exact (applyAll_enters _).mapError.bind fun _ => trivial
  refine ⟨trivial, fun pid => ?_⟩
  refine (enters_of_still (moveTo_still _ _)).mapError.bind fun _ => ?_
  exact hnamespaces.bind fun inUserNs =>
    applySecurityContext_enters hpanic processStatus inUserNs

end Enters

/-- The calls with which a process adopts the root of the container and its profile. -/
def Adopts : Syscall → Prop
  | .chroot _ | .chdir _ | .openFile _ _ | .write _ _ => True
  | _ => False

section Adopts

variable {halts : Halt → Prop}

theorem inheritProfile_adopts (profile : Option ApparmorProfile.LSMProfile) :
    (inheritProfile profile).Within Adopts halts := by
  cases profile with
  | none => trivial
  | some profile =>
      refine Program.Within.mapError (.check trivial fun _ => ?_)
      exact (writeAll_within (fun _ => trivial) _).bind fun r =>
        (Program.within_ofExcept _ r).mpr trivial

theorem preExec_adopts (containerRoot : Path) (profile : Option ApparmorProfile.LSMProfile) :
    (preExec containerRoot profile).Within Adopts halts := by
  refine .check trivial fun _ => .check trivial fun _ => ?_
  cases profile with
  | none => trivial
  | some profile =>
      refine .check trivial fun _ => ?_
      exact (writeAll_within (fun _ => trivial) _).bind fun r =>
        (Program.within_ofExcept _ r).mpr trivial

end Adopts

end Cntr.CallsMade
