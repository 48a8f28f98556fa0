import Cntr.CallsMade
import Cntr.ProcessStatus

/-!
Which calls each process of the program can make at all, from the first call of
the program to its last.
-/

namespace Cntr.CallFootprints

open Cntr.ByteText
open Cntr.CallTree
open Cntr.SystemCalls
open Cntr.AttachChild
open Cntr.CallsMade
open Cntr.CgroupManagers
open Cntr.CommandExecution
open Cntr.IdmapHelperProcess
open Cntr.NamespaceFiles
open Cntr.PtySession
open Cntr.WholeWrites

/-- The calls that only look. -/
def Observes : Syscall → Prop
  | .getenv _ | .geteuidIsRoot => True
  | .openFile _ mode => mode = .read
  | .openLines _ | .readToString _ | .readLink _ | .metadata _ | .readDir _ => True
  | .nextLine _ | .nextSplit _ _ | .readToEnd _ | .isatty _ => True
  | .openNamespace _ _ _ | .namespaceLink _ _ _ | .ownNamespaceLink _ => True
  | _ => False

section Observes

variable {ε : Type} {halts : Halt → Prop}

theorem getPath_observes : (Procfs.getPath (ε := ε)).Within Observes halts := by
  refine ⟨trivial, ?_⟩
  rintro (_ | path) <;> trivial

theorem openReader_observes (path : Path) : (openReader path).Within Observes halts := by
  refine ⟨trivial, ?_⟩
  rintro (e | items) <;> trivial

theorem readLines_observes (path : Path) : (readLines path).Within Observes halts :=
  (openReader_observes path).bind fun _ => (Program.within_ofExcept _ _).mpr trivial

theorem envVar_observes (key : Bytes) : (envVar (ε := ε) key).Within Observes halts :=
  ⟨trivial, fun _ => trivial⟩

theorem getBaseDir_observes : (getBaseDir (ε := ε)).Within Observes halts := by
  have huser : (userBaseDir (ε := ε)).Within Observes halts := by
    refine (envVar_observes _).bind ?_
    rintro (_ | runtimeDir)
    · refine (envVar_observes _).bind ?_
      rintro (_ | home) <;> trivial
    · trivial
  refine (envVar_observes _).bind ?_
  rintro (_ | dir)
  · refine ⟨trivial, fun isRoot => ?_⟩
    cases isRoot with
    | true => trivial
    | false => exact huser
  · trivial

theorem readEnvironment_observes (pid : Pid) :
    (readEnvironment pid).Within Observes halts := by
  refine getPath_observes.bind fun procfsPath => .check rfl fun _ => ?_
  refine ⟨fun vars => ⟨trivial, ?_⟩, fun _ => trivial⟩
  rintro (e | _ | var) <;> trivial

theorem cmdNew_observes (command : Option Bytes) (args : List Bytes) (pid : Pid)
    (home : Option Path) : (Cmd.new command args pid home).Within Observes halts := by
  have hcommand : (commandOrShell command).Within Observes halts := by
    cases command with
    | some command => trivial
    | none =>
        refine ⟨trivial, ?_⟩
        rintro (_ | value) <;> trivial
  exact hcommand.bind fun _ => (readEnvironment_observes pid).bind fun _ =>
    .check trivial fun _ => trivial

theorem supportedNamespaces_observes : supportedNamespaces.Within Observes halts :=
  .check trivial fun _ => (Program.within_ofExcept _ _).mpr trivial

theorem openKind_observes (kind : Kind) (pid : Pid) :
    (openKind kind pid).Within Observes halts :=
  getPath_observes.bind fun _ => .check trivial fun _ => trivial

theorem isSame_observes (kind : Kind) (pid : Pid) :
    (isSame (ε := ε) kind pid).Within Observes halts := by
  refine getPath_observes.bind fun _ => ⟨trivial, ?_⟩
  rintro (e | dest)
  · trivial
  · refine ⟨trivial, ?_⟩
    rintro (e | dest2) <;> trivial

theorem openIfOther_observes {β : Type} (supported : List Bytes) (kind : Kind) (pid : Pid)
    (skipped : β) (opened : NamespaceFiles.Namespace → β) (f : NamespaceError → ε) :
    ((if kind.name ∉ supported then return skipped
      else do
        if ← isSame kind pid then return skipped
        else
          let ns ← (openKind kind pid).mapError f
          return opened ns) : Sys ε β).Within Observes halts := by
  split
  · trivial
  · refine (isSame_observes kind pid).bind fun same => ?_
    cases same with
    | true => trivial
    | false => exact (openKind_observes kind pid).mapError.bind fun _ => trivial

theorem attachOpenOthers_observes (containerPid : Pid) (supported : List Bytes)
    (opened : List NamespaceFiles.Namespace) (kinds : List Kind) :
    (AttachChild.openOthers containerPid supported opened kinds).Within Observes halts := by
  induction kinds generalizing opened with
  | nil => trivial
  | cons kind kinds ih =>
      exact (openIfOther_observes supported kind containerPid opened
        (fun ns => opened ++ [ns]) _).bind ih

theorem execOpenOthers_observes (containerPid : Pid) (supported : List Bytes)
    (opened : ContainerSetup.OpenedNamespaces) (kinds : List Kind) :
    (ContainerSetup.openOthers containerPid supported opened kinds).Within Observes halts := by
  induction kinds generalizing opened with
  | nil => trivial
  | cons kind kinds ih =>
      exact (openIfOther_observes supported kind containerPid opened
        (fun ns => ⟨opened.otherNamespaces ++ [ns], opened.userNsEntered || kind = .user⟩) _).bind
          ih

theorem containerEnvironment_observes (cmd : Cmd) :
    cmd.containerEnvironment.Within Observes halts := by
  rw [Cmd.containerEnvironment]
  cases cmd.environment (ascii "PATH") with
  | some _ => trivial
  | none =>
      refine Program.Within.bind ⟨trivial, ?_⟩ fun _ => trivial
      rintro (e | contents) <;> trivial

theorem readProfile_observes (pid : Pid) (mode : ApparmorProfile.ApparmorMode) :
    (ApparmorProfile.readProfile pid mode).Within Observes halts := by
  have hpath : ∀ pid, (ApparmorProfile.apparmorProfilePath pid).Within Observes halts :=
    fun _ => getPath_observes.bind fun _ => trivial
  have hlabel : ∀ path, (ApparmorProfile.readApparmorLabel path).Within Observes halts := by
    intro path
    exact .check rfl fun _ => ⟨trivial, fun _ => .ofExcept _ fun _ => trivial⟩
  have henabled : ApparmorProfile.isApparmorEnabled.Within Observes halts := by
    refine ⟨rfl, ?_⟩
    rintro (e | _)
    · show Program.Within _ _ (if e = .notFound then _ else _)
      split
      · trivial
      · trivial
    · exact ⟨trivial, fun _ => .ofExcept _ fun _ => trivial⟩
  rw [ApparmorProfile.readProfile]
  split
  · trivial
  · refine henabled.bind fun enabled => ?_
    cases enabled with
    | false => trivial
    | true =>
        refine (hpath _).bind fun _ => (hlabel _).bind fun targetLabel => ?_
        refine (hpath _).bind fun _ => (hlabel _).bind fun ownLabel => ?_
        split
        · trivial
        · trivial

theorem status_observes (pid : Pid) (mode : ApparmorProfile.ApparmorMode) :
    (ProcessStatus.status pid mode).Within Observes halts := by
  have htext : ∀ path, (IdTranslation.readText path).Within Observes halts := fun path =>
    ⟨trivial, fun r => (Program.within_ofExcept _ _).mpr trivial⟩
  have htranslate : ∀ path id, (IdTranslation.translateId path id).Within Observes halts :=
    fun path id => (htext path).bind fun _ => (Program.within_ofExcept _ _).mpr trivial
  refine getPath_observes.bind fun _ => Program.Within.bind ?_ fun _ => ?_
  · exact .check trivial fun _ => (Program.within_ofExcept _ _).mpr trivial
  refine Program.Within.bind ?_ fun _ => ?_
  · exact getPath_observes.bind fun _ => (htext _).bind fun _ =>
      (Program.within_ofExcept _ _).mpr trivial
  refine getPath_observes.bind fun _ => .check trivial fun _ => ?_
  refine (htranslate _ _).bind fun _ => (htranslate _ _).bind fun _ => ?_
  exact (readProfile_observes pid mode).mapError.bind fun _ => trivial

end Observes

/-- The calls with which a child takes its place in the container. The files that it
creates, if they are not there, are those by which it comes to a cgroup. -/
def Confines : Syscall → Prop
  | .openFile path mode => mode = .create → ∃ dir, path = pushPath dir (ascii "tasks")
  | .getpid | .write (.atPath _ _) _ => True
  | .setns _ _ => True
  | .setThreadGroups | .setThreadGid _ | .setThreadUid _ | .dropBounding _ => True
  | .chdir _ | .chroot _ => True
  | c => Observes c

section Confines

variable {ε α : Type} {halts : Halt → Prop}

/-- Files that must be there may be opened. -/
theorem confines_openFile {path : Path} {mode : OpenMode} (hmode : mode ≠ .create) :
    Confines (.openFile path mode) :=
  fun hcreate => absurd hcreate hmode

theorem confines_of_observes {p : Sys ε α} (h : p.Within Observes halts) :
    p.Within Confines halts := by
  refine h.mono (fun c hc => ?_) fun _ => id
  cases c with
  | openFile path mode =>
      have hread : mode = .read := hc
      exact confines_openFile (by rw [hread]; decide)
  | _ => first | exact hc | trivial

theorem cgroupV1Path_tasks {cgroup : Bytes} {mountpoints : Mountpoints} {path : Path}
    (h : cgroupV1Path cgroup mountpoints = some path) :
    ∃ dir, path = pushPath dir (ascii "tasks") := by
  obtain ⟨c, -, hc⟩ := List.exists_of_findSome?_eq_some h
  obtain ⟨mountpoint, -, rfl⟩ := Option.map_eq_some_iff.mp hc
  exact ⟨_, rfl⟩

theorem moveTo_confines (pid targetPid : Pid) :
    (CgroupManagers.moveTo pid targetPid).Within Confines halts := by
  have hread : ∀ path, (readLines path).Within Confines halts := fun path =>
    confines_of_observes (readLines_observes path)
  have hwrite : ∀ path mode, (writeAll (ε := CgroupError) (.atPath path mode) pid.text).Within
      Confines halts := fun path mode => writeAll_within (fun _ => trivial) _
  have hv1 : ∀ manager : CgroupV1Manager, (manager.moveTo pid targetPid).Within Confines
      halts := by
    intro manager
    have henter : ∀ mountpoints cgroup,
        (CgroupV1Manager.enter pid mountpoints cgroup).Within Confines halts := by
      intro mountpoints cgroup
      rw [CgroupV1Manager.enter]
      cases hpath : cgroupV1Path cgroup mountpoints with
      | none => trivial
      | some path =>
          refine ⟨fun _ => cgroupV1Path_tasks hpath, ?_⟩
          rintro (e | _)
          · trivial
          · refine (hwrite _ _).bind ?_
            rintro (e | _) <;> trivial
    have hparsed : ∀ {α : Type} (path : Path) (f : List Bytes → α),
        ((readLines path).bind fun lines => .done (f lines)).Within Confines halts :=
      fun path f => (hread path).bind fun _ => trivial
    refine (hparsed _ _).bind fun cgroups => ?_
    refine Program.Within.bind ?_ fun mountpoints => .forEach (henter mountpoints) cgroups
    exact (hparsed _ _).bind fun _ => hparsed _ _
  have hv2 : ∀ manager : CgroupV2Manager, (manager.moveTo pid targetPid).Within Confines
      halts := by
    intro manager
    have hpath : (manager.getCgroupPath targetPid).Within Confines halts :=
      (confines_of_observes (openReader_observes _)).bind fun _ =>
        (Program.within_ofExcept _ _).mpr trivial
    rw [CgroupV2Manager.moveTo]
    refine hpath.bind ?_
    rintro (_ | cgroupPath)
    · trivial
    · refine ⟨confines_openFile (by decide), ?_⟩
      rintro (e | _)
      · trivial
      · exact (hwrite _ _).bind fun _ => trivial
  have hcreate : createManager.Within Confines halts :=
    (hread _).bind fun _ => (confines_of_observes getPath_observes).bind fun _ => trivial
  refine hcreate.bind fun manager => ?_
  cases manager with
  | v1 manager => exact hv1 manager
  | v2 manager => exact hv2 manager
  | hybrid manager =>
      refine (hv2 manager.v2).attempt.bind ?_
      rintro (e | _)
      · exact hv1 manager.v1
      · trivial
  | null => trivial

theorem apply_confines (ns : NamespaceFiles.Namespace) : ns.apply.Within Confines halts :=
  ⟨trivial, fun r => (Program.within_ofExcept _ r).mpr trivial⟩

theorem applyAll_confines (namespaces : List NamespaceFiles.Namespace) :
    (ContainerSetup.applyAll namespaces).Within Confines halts :=
  .forEach apply_confines namespaces

theorem applySecurityContext_confines (hpanic : halts .panicked)
    (processStatus : ContainerSetup.ProcStatus) (inUserNamespace : Bool) :
    (ContainerSetup.applySecurityContext processStatus inUserNamespace).Within Confines
      halts := by
  have hdrop : (BoundingSet.drop processStatus.effectiveCapabilities processStatus.lastCap :
      Sys ContainerSetup.SetupError Unit).Within Confines halts :=
    BoundingSet.drop_within (fun _ => trivial) hpanic _ _
  have hidentity : (ContainerSetup.setIdentity processStatus).Within Confines halts :=
    ⟨trivial, fun _ => .check trivial fun _ => ⟨trivial, fun r =>
      (Program.within_ofExcept _ r).mpr trivial⟩⟩
  cases inUserNamespace with
  | true => exact hidentity.bind fun _ => hdrop
  | false => exact hdrop

theorem inheritProfile_confines (profile : Option ApparmorProfile.LSMProfile) :
    (inheritProfile profile).Within Confines halts := by
  cases profile with
  | none => trivial
  | some profile =>
      refine Program.Within.mapError (.check (confines_openFile (by decide)) fun _ => ?_)
      exact (writeAll_within (fun _ => trivial) _).bind fun r =>
        (Program.within_ofExcept _ r).mpr trivial

theorem preExec_confines (containerRoot : Path)
    (profile : Option ApparmorProfile.LSMProfile) :
    (preExec containerRoot profile).Within Confines halts := by
  refine .check trivial fun _ => .check trivial fun _ => ?_
  cases profile with
  | none => trivial
  | some profile =>
      refine .check (confines_openFile (by decide)) fun _ => ?_
      exact (writeAll_within (fun _ => trivial) _).bind fun r =>
        (Program.within_ofExcept _ r).mpr trivial

theorem enterContainer_confines (hpanic : halts .panicked)
    (processStatus : ContainerSetup.ProcStatus) :
    (ContainerSetup.enterContainer processStatus).Within Confines halts := by
  have hnamespaces :
      (ContainerSetup.enterNamespaces processStatus.globalPid).Within Confines halts := by
    refine (confines_of_observes supportedNamespaces_observes).mapError.bind
      fun supported => ?_
    split
    · trivial
    · refine (confines_of_observes (openKind_observes _ _)).mapError.bind
        fun mountNamespace => ?_
      refine (confines_of_observes (execOpenOthers_observes _ _ _ _)).bind fun opened => ?_
      refine (apply_confines _).mapError.bind fun _ => ?_
      exact (applyAll_confines _).mapError.bind fun _ => trivial
  refine ⟨trivial, fun pid => (moveTo_confines _ _).mapError.bind fun _ => ?_⟩
  exact hnamespaces.bind fun inUserNs =>
    applySecurityContext_confines hpanic processStatus inUserNs

end Confines

/-- The calls with which a process gets a terminal of its own and tells its parent. -/
def Connects : Syscall → Prop
  | .isatty _ | .openpt | .grantpt _ | .unlockpt _ | .ptsname _ => True
  | .setsid | .openTerminal _ | .tiocsctty _ | .dup2 _ _ | .closeFd _ => True
  | .sendmsg _ _ | .dropSocket _ => True
  | _ => False

section Connects

variable {ε : Type} {halts : Halt → Prop}

theorem stdioIsTty_connects : (stdioIsTty (ε := ε)).Within Connects halts := by
  refine ⟨trivial, fun isTty => ?_⟩
  cases isTty with
  | true => exact ⟨trivial, fun _ => trivial⟩
  | false => trivial

theorem openPtm_connects : openPtm.Within Connects halts :=
  .check trivial fun _ => .check trivial fun _ => .check trivial fun _ => trivial

theorem attachPts_connects (ptyMaster : Fd) : (attachPts ptyMaster).Within Connects halts := by
  refine .check trivial fun ptsName => ?_
  split
  · refine .check trivial fun _ => .check trivial fun ptySlave => ⟨trivial, fun _ => ?_⟩
    refine .check trivial fun _ => .check trivial fun _ => .check trivial fun _ => ?_
    exact ⟨trivial, fun _ => trivial⟩
  · trivial

theorem setupPty_connects : setupPty.Within Connects halts := by
  refine stdioIsTty_connects.bind fun isTty => ?_
  cases isTty with
  | true =>
      refine openPtm_connects.mapError.bind fun ptyMaster => ?_
      exact (attachPts_connects ptyMaster).mapError.bind fun _ => trivial
  | false => trivial

theorem sendReady_connects (ptyMaster : Option Fd) :
    (sendReady ptyMaster).Within Connects halts :=
  Program.Within.mapError ⟨trivial, fun r => (Program.within_ofExcept _ r).mpr trivial⟩

end Connects

/-- The calls with which a child gets ready to become the command, those on mounts
among them. -/
def Arranges : Syscall → Prop
  | .unshareMount | .makeMountsPrivate => True
  | .mountTmpfs _ | .bindMount _ _ | .openTree _ _ | .idmapMount _ _ | .moveMount _ _ => True
  | .createDirAll _ | .openFile _ _ | .writePath _ _ | .closeFd _ => True
  | .openLocaltime | .readContainerRoot | .statIsDirectory _ => True
  | c => Confines c

section Arranges

variable {ε α : Type} {halts : Halt → Prop}

theorem arranges_of_confines {p : Sys ε α} (h : p.Within Confines halts) :
    p.Within Arranges halts := by
  refine h.mono (fun c hc => ?_) fun _ => id
  cases c <;> first | exact hc | trivial

theorem arranges_of_observes {p : Sys ε α} (h : p.Within Observes halts) :
    p.Within Arranges halts :=
  arranges_of_confines (confines_of_observes h)

/-- The calls that put idmapped copies over mounts. -/
def Idmaps : Syscall → Prop
  | .openFile _ mode => mode = .read
  | .nextLine _ | .openTree _ _ | .idmapMount _ _ | .moveMount _ _ | .closeFd _ => True
  | _ => False

theorem idmapMounts_idmaps (usernsFd : Option NsId) (baseDir : Path) :
    (idmapMounts usernsFd baseDir).Within Idmaps halts := by
  have hline : ∀ usernsFd line, (idmapLine usernsFd baseDir line).Within Idmaps halts := by
    intro usernsFd line
    have hat : ∀ mountPoint, (idmapAt usernsFd mountPoint).Within Idmaps halts := by
      intro mountPoint
      have htree : ∀ tree, (idmapTree usernsFd mountPoint tree).Within Idmaps halts := by
        intro tree
        refine ⟨trivial, ?_⟩
        rintro (e | _)
        · trivial
        · exact ⟨trivial, fun _ => trivial⟩
      refine ⟨trivial, ?_⟩
      rintro (e | tree)
      · trivial
      · exact (htree tree).bind fun _ => ⟨trivial, fun _ => trivial⟩
    rw [idmapLine]
    split
    · cases idmappedMountPoint baseDir line with
      | none => trivial
      | some mountPoint => exact hat mountPoint
    · trivial
  cases usernsFd with
  | none => trivial
  | some usernsFd =>
      refine .check rfl fun _ => ⟨fun _ => ⟨trivial, ?_⟩, fun _ => trivial⟩
      rintro (e | _ | line)
      · trivial
      · trivial
      · exact (hline usernsFd line).bind fun _ => trivial

theorem idmapMounts_arranges (usernsFd : Option NsId) (baseDir : Path) :
    (idmapMounts usernsFd baseDir).Within Arranges halts := by
  refine (idmapMounts_idmaps usernsFd baseDir).mono (fun c hc => ?_) fun _ => id
  cases c <;> first | exact hc.elim | trivial

theorem assembleHierarchy_arranges (options : ChildOptions) (baseDir : Path) :
    (assembleHierarchy options baseDir).Within Arranges halts := by
  have hcapture : ∀ pid ourMountNs,
      (captureAndAttachContainerTrees pid ourMountNs baseDir).Within Arranges halts := by
    intro pid ourMountNs
    have hattach : ∀ captured, (attachCaptured baseDir captured).Within Arranges halts := by
      intro captured
      refine (createMountPoint_within (fun _ => trivial) (fun _ => trivial) _ _ _).bind
        fun created => ?_
      cases created with
      | true => exact ⟨trivial, fun _ => ⟨trivial, fun _ => trivial⟩⟩
      | false => exact ⟨trivial, fun _ => trivial⟩
    refine (arranges_of_observes (openKind_observes _ _)).mapError.bind fun _ => ?_
    refine (arranges_of_confines (apply_confines _)).mapError.bind fun _ => ?_
    refine .check trivial fun dir => ?_
    refine (captureTrees_within (fun _ => trivial) (fun _ => trivial) _).bind fun trees => ?_
    exact (arranges_of_confines (apply_confines _)).mapError.bind fun _ => .forEach hattach trees
  refine .check trivial fun _ => .check trivial fun _ => .check trivial fun _ => ?_
  refine .check trivial fun _ => (idmapMounts_arranges _ _).bind fun _ => ?_
  refine ⟨trivial, fun ownPid => ?_⟩
  refine (arranges_of_observes (openKind_observes _ _)).mapError.bind fun ourMountNs => ?_
  refine .check trivial fun _ => Program.Within.bind ?_ fun _ =>
    (hcapture _ _).bind fun _ => trivial
  refine ⟨trivial, ?_⟩
  rintro (e | _)
  · trivial
  · refine ⟨trivial, ?_⟩
    rintro (e | contents)
    · trivial
    · refine ⟨trivial, ?_⟩
      rintro (e | _)
      · trivial
      · exact ⟨trivial, fun _ => trivial⟩

end Arranges

end Cntr.CallFootprints
