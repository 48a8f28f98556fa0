import Cntr.CommandExecution
import Cntr.ContainerSetup
import Cntr.IdmapHelperProcess
import Cntr.PtySession
import Cntr.ReadySocket

namespace Cntr.AttachChild

open Cntr.ByteText
open Cntr.CallTree
open Cntr.SystemCalls
open Cntr.ApparmorProfile
open Cntr.CgroupManagers
open Cntr.CommandExecution
open Cntr.ContainerSetup (ProcStatus SetupError applyAll applySecurityContext)
open Cntr.IdmapHelperProcess
open Cntr.NamespaceFiles
open Cntr.PtySession
open Cntr.ReadySocket
open Cntr.WhiteSpaceText

inductive AttachError where
  | idmapHelper (source : IdmapError)
  | ipc (source : IpcError)
  | fork (source : Errno)
  | childNotReady
  | pty (source : PtyError)
  | cgroup (source : CgroupError)
  | cmd (source : CmdError)
  | namespaceFailed (source : NamespaceError)
  | mountNamespaceUnsupported
  | createBaseDir (path : Path) (source : IoError)
  | openContainerRoot (path : Path) (source : IoError)
  | unshareMountNamespace (source : Errno)
  | makeMountsPrivate (source : Errno)
  | openProcMounts (source : IoError)
  | mountTmpfs (path : Path) (source : Errno)
  | readContainerRootDir (source : Errno)
  | setup (source : SetupError)
  | lsm (source : LsmError)
  deriving DecidableEq

structure ChildOptions where
  command : Option Bytes
  arguments : List Bytes
  processStatus : ProcStatus
  usernsFd : Option NsId
  effectiveHome : Option Path

/-- `env::var`: a value that is not UTF-8 counts as none. -/
def envVar {ε : Type} (key : Bytes) : Sys ε (Option Bytes) := do
  return (← sys (.getenv key)).filter isUtf8

def defaultBaseDir : Path := ascii "/var/lib/cntr"

/-- The directory of a user without `CNTR_BASE_DIR` who is not root. -/
def userBaseDir {ε : Type} : Sys ε Path := do
  match ← envVar (ascii "XDG_RUNTIME_DIR") with
  | some runtimeDir => return pushPath runtimeDir (ascii "cntr")
  | none =>
      match ← envVar (ascii "HOME") with
      | some home =>
          return pushPath (pushPath (pushPath home (ascii ".local")) (ascii "share")) (ascii "cntr")
      | none => return defaultBaseDir

def getBaseDir {ε : Type} : Sys ε Path := do
  match ← envVar (ascii "CNTR_BASE_DIR") with
  | some dir => return dir
  | none => if ← sys .geteuidIsRoot then return defaultBaseDir else userBaseDir

def skipFstypes : List Bytes :=
  [ascii "proc", ascii "sysfs", ascii "devtmpfs", ascii "devpts", ascii "cgroup",
    ascii "cgroup2", ascii "securityfs", ascii "debugfs", ascii "tracefs", ascii "pstore",
    ascii "efivarfs", ascii "mqueue", ascii "hugetlbfs", ascii "autofs", ascii "fusectl",
    ascii "configfs", ascii "rpc_pipefs", ascii "binfmt_misc", ascii "overlay"]

/-- The mount point in a line of `/proc/mounts`, if it is one to be idmapped. -/
def idmappedMountPoint (baseDir : Path) (line : Bytes) : Option Path :=
  match splitWhitespace line with
  | _ :: mountPoint :: fstype :: _ =>
      if fstype ∈ skipFstypes ∨ pathStartsWith mountPoint baseDir then none
      else some mountPoint
  | _ => none

/-- Idmap a copy of a mount and put it over the mount. -/
def idmapTree (usernsFd : NsId) (mountPoint : Path) (tree : Fd) : Sys AttachError Unit := do
  match ← sys (.idmapMount tree usernsFd) with
  | .error _ => return ()
  | .ok _ =>
      let _ ← sys (.moveMount tree mountPoint)
      return ()

/-- Replace a mount by an idmapped copy; every failure is only warned about. -/
def idmapAt (usernsFd : NsId) (mountPoint : Path) : Sys AttachError Unit := do
  match ← sys (.openTree .cwd mountPoint) with
  | .error _ => return ()
  | .ok tree => do
      idmapTree usernsFd mountPoint tree
      sys (.closeFd tree)

def idmapLine (usernsFd : NsId) (baseDir : Path) (line : Bytes) : Sys AttachError Unit :=
  if isUtf8 line then
    match idmappedMountPoint baseDir line with
    | some mountPoint => idmapAt usernsFd mountPoint
    | none => return ()
  else return ()

def procMountsPath : Path := ascii "/proc/mounts"

/-- One step of the iterator over the lines of `/proc/mounts`; a line that cannot
be read is skipped. -/
def idmapRound (usernsFd : NsId) (baseDir : Path) : Sys AttachError (Unit ⊕ Unit) := do
  match ← sys (.nextLine (.atPath procMountsPath .read)) with
  | .error _ => return .inl ()
  | .ok none => return .inr ()
  | .ok (some line) => do
      idmapLine usernsFd baseDir line
      return .inl ()

def applyIdmappedMounts (usernsFd : NsId) (baseDir : Path) : Sys AttachError Unit := do
  Program.ofExcept .openProcMounts (← sys (.openFile procMountsPath .read))
  .iterate (fun _ : Unit => idmapRound usernsFd baseDir) () .done

def localtimePath : Path := ascii "/etc/localtime"

def copyName : Bytes := ascii ".localtime"

/-- Where the time zone of the container is copied to. -/
def copyPath (baseDir : Path) : Path := pushPath baseDir copyName

/-- The copy of the container's `/etc/localtime`, if one was made. -/
def setupContainerTimezone (baseDir : Path) : Sys AttachError (Option Path) := do
  match ← sys .openLocaltime with
  | .error _ => return none
  | .ok _ =>
      match ← sys (.readToEnd .localtime) with
      | .error _ => return none
      | .ok contents =>
          let copyPath := pushPath baseDir (ascii ".localtime")
          match ← sys (.writePath copyPath contents) with
          | .error _ => return none
          | .ok _ =>
              let _ ← sys (.bindMount copyPath localtimePath)
              return some copyPath

structure CapturedTree where
  name : Bytes
  tree : Fd
  isDir : Bool

/-- The entries of the container's root that are to be captured. -/
def rootEntries (entries : List (Except Errno DirEntry)) : List DirEntry :=
  (entries.filterMap Except.toOption).filter fun entry =>
    entry.fileName ≠ ascii "." ∧ entry.fileName ≠ ascii ".."

def entryIsDir (entry : DirEntry) : Sys AttachError Bool :=
  match entry.fileType with
  | .directory => return true
  | .unknown => do
      match ← sys (.statIsDirectory entry.fileName) with
      | .ok isDir => return isDir
      | .error _ => return false
  | _ => return false

/-- The trees that could be captured, in the order of the entries. -/
def captureTrees : List DirEntry → Sys AttachError (List CapturedTree)
  | [] => return []
  | entry :: entries => do
      let isDir ← entryIsDir entry
      match ← sys (.openTree .containerRoot entry.fileName) with
      | .ok tree => do
          let trees ← captureTrees entries
          return ⟨entry.fileName, tree, isDir⟩ :: trees
      | .error _ => captureTrees entries

/-- Create the mount point of a tree. The parent of `target` is `baseDir`, as
the name of an entry has no slash. -/
def createMountPoint (baseDir target : Path) (isDir : Bool) : Sys AttachError Bool := do
  if isDir then return (← sys (.createDirAll target)).isOk
  else
    match ← sys (.createDirAll baseDir) with
    | .error _ => return false
    | .ok _ => return (← sys (.openFile target .create)).isOk

/-- Whatever becomes of a tree, its descriptor is closed. -/
def attachCaptured (baseDir : Path) (captured : CapturedTree) : Sys AttachError Unit := do
  let target := pushPath baseDir captured.name
  if ← createMountPoint baseDir target captured.isDir then
    let _ ← sys (.moveMount captured.tree target)
    sys (.closeFd captured.tree)
  else sys (.closeFd captured.tree)

def captureAndAttachContainerTrees (containerPid : Pid) (ourMountNs : Namespace)
    (baseDir : Path) : Sys AttachError Unit := do
  let containerMountNs ← (openKind .mount containerPid).mapError .namespaceFailed
  containerMountNs.apply.mapError .namespaceFailed
  let dir ← Program.ofExcept .readContainerRootDir (← sys .readContainerRoot)
  let capturedTrees ← captureTrees (rootEntries dir)
  ourMountNs.apply.mapError .namespaceFailed
  .forEach (attachCaptured baseDir) capturedTrees

def otherKinds : List Kind := [.uts, .cgroup, .pid, .net, .ipc, .user]

/-- The body of the loop that opens the namespaces. -/
def openOther (containerPid : Pid) (supported : List Bytes) (otherNamespaces : List Namespace)
    (kind : Kind) : Sys AttachError (List Namespace) :=
  if kind.name ∉ supported then return otherNamespaces
  else do
    if ← isSame kind containerPid then return otherNamespaces
    else
      let ns ← (openKind kind containerPid).mapError .namespaceFailed
      return otherNamespaces ++ [ns]

def openOthers (containerPid : Pid) (supported : List Bytes)
    (otherNamespaces : List Namespace) : List Kind → Sys AttachError (List Namespace)
  | [] => return otherNamespaces
  | kind :: kinds => do
      let otherNamespaces ← openOther containerPid supported otherNamespaces kind
      openOthers containerPid supported otherNamespaces kinds

def idmapMounts (usernsFd : Option NsId) (baseDir : Path) : Sys AttachError Unit :=
  match usernsFd with
  | some usernsFd => applyIdmappedMounts usernsFd baseDir
  | none => return ()

/-- Step 5 of `run`, the mount hierarchy; the result is the copy of the
container's `/etc/localtime`. -/
def assembleHierarchy (options : ChildOptions) (baseDir : Path) :
    Sys AttachError (Option Path) := do
  let containerPid := options.processStatus.globalPid
  Program.ofExcept (.createBaseDir baseDir) (← sys (.createDirAll baseDir))
  Program.ofExcept (.openContainerRoot (procRootPath containerPid))
    (← sys (.openFile (procRootPath containerPid) .read))
  Program.ofExcept .unshareMountNamespace (← sys .unshareMount)
  Program.ofExcept .makeMountsPrivate (← sys .makeMountsPrivate)
  idmapMounts options.usernsFd baseDir
  let ownPid ← sys .getpid
  let ourMountNs ← (openKind .mount ownPid).mapError .namespaceFailed
  Program.ofExcept (.mountTmpfs baseDir) (← sys (.mountTmpfs baseDir))
  let localtimeCopy ← setupContainerTimezone baseDir
  captureAndAttachContainerTrees containerPid ourMountNs baseDir
  return localtimeCopy

def withTimezone (cmd : Cmd) : Option Path → Cmd
  | some path => cmd.envDefault (ascii "TZ") (ascii ":" ++ path)
  | none => cmd

/-- The PTY of the command, unless stdio is redirected. -/
def setupPty : Sys AttachError (Option Fd) := do
  if ← stdioIsTty then
    let ptyMaster ← openPtm.mapError .pty
    (attachPts ptyMaster).mapError .pty
    return some ptyMaster
  else return none

def sendReady (ptyMaster : Option Fd) : Sys AttachError Unit :=
  (send (ascii "R") ptyMaster.toList).mapError .ipc

def inheritProfile : Option LSMProfile → Sys AttachError Unit
  | some profile => profile.inheritProfile.mapError .lsm
  | none => return ()

/-- Steps 6 to 12 of `run`. -/
def enterAndExecute (options : ChildOptions) (baseDir : Path) (cmd : Cmd)
    (otherNamespaces : List Namespace) : Sys AttachError Empty := do
  let inUserNs := otherNamespaces.any fun ns => ns.kind = .user
  (applyAll otherNamespaces).mapError .namespaceFailed
  let ptyMaster ← setupPty
  (applySecurityContext options.processStatus inUserNs).mapError .setup
  sendReady ptyMaster
  let _ ← sys (.chdir baseDir)
  inheritProfile options.processStatus.lsmProfile
  cmd.execInOverlay.mapError .cmd

def run (options : ChildOptions) : Sys AttachError Empty := do
  let containerPid := options.processStatus.globalPid
  let pid ← sys .getpid
  (CgroupManagers.moveTo pid containerPid).mapError .cgroup
  let cmd ← (Cmd.new options.command options.arguments containerPid
    options.effectiveHome).mapError .cmd
  let supported ← supportedNamespaces.mapError .namespaceFailed
  if Kind.mount.name ∉ supported then .fail .mountNamespaceUnsupported
  else
    let otherNamespaces ← openOthers containerPid supported [] otherKinds
    let baseDir ← getBaseDir
    let localtimeCopy ← assembleHierarchy options baseDir
    enterAndExecute options baseDir (withTimezone cmd localtimeCopy) otherNamespaces

section Calls

variable {calls : Syscall → Prop} {halts : Halt → Prop}

theorem captureTrees_within (hstat : ∀ name, calls (.statIsDirectory name))
    (hopen : ∀ name, calls (.openTree .containerRoot name)) (entries : List DirEntry) :
    (captureTrees entries).Within calls halts := by
  induction entries with
  | nil => trivial
  | cons entry entries ih =>
      have hdir : (entryIsDir entry).Within calls halts := by
        rw [entryIsDir]
        cases entry.fileType with
        | unknown =>
            refine ⟨hstat _, ?_⟩
            rintro (e | isDir) <;> trivial
        | _ => trivial
      refine hdir.bind fun isDir => ⟨hopen _, ?_⟩
      rintro (e | tree)
      · exact ih
      · exact ih.bind fun _ => trivial

theorem createMountPoint_within (hdir : ∀ path, calls (.createDirAll path))
    (hfile : ∀ path, calls (.openFile path .create)) (baseDir target : Path) (isDir : Bool) :
    (createMountPoint baseDir target isDir).Within calls halts := by
  cases isDir with
  | true => exact ⟨hdir _, fun _ => trivial⟩
  | false =>
      refine ⟨hdir _, ?_⟩
      rintro (e | _)
      · trivial
      · exact ⟨hfile _, fun _ => trivial⟩

end Calls

end Cntr.AttachChild
