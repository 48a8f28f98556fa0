import Cntr.ApparmorProfile
import Cntr.BoundingSet
import Cntr.CgroupManagers
import Cntr.NamespaceFiles

namespace Cntr.ContainerSetup

open Cntr.ByteText
open Cntr.CallTree
open Cntr.SystemCalls
open Cntr.ApparmorProfile
open Cntr.CgroupManagers
open Cntr.NamespaceFiles

structure ProcStatus where
  globalPid : Pid
  effectiveCapabilities : BitVec 64
  lastCap : Nat
  uid : Nat
  gid : Nat
  lsmProfile : Option LSMProfile

/-- A target that runs as root without capabilities. -/
def plainStatus : ProcStatus where
  globalPid := someTarget
  effectiveCapabilities := 0
  lastCap := 0
  uid := 0
  gid := 0
  lsmProfile := none

inductive SetupError where
  | mountNamespaceUnsupported
  | namespaceFailed (source : NamespaceError)
  | cgroup (source : CgroupError)
  | setGid (source : Errno)
  | setUid (source : Errno)
  deriving DecidableEq

def otherKinds : List Kind := [.uts, .cgroup, .pid, .net, .ipc, .user]

/-- The namespaces opened so far and `user_ns_entered`. -/
structure OpenedNamespaces where
  otherNamespaces : List Namespace
  userNsEntered : Bool

/-- The body of the loop that opens the namespaces. -/
def openOther (containerPid : Pid) (supported : List Bytes) (opened : OpenedNamespaces)
    (kind : Kind) : Sys SetupError OpenedNamespaces :=
  if kind.name ∉ supported then return opened
  else do
    if ← isSame kind containerPid then return opened
    else
      let ns ← (openKind kind containerPid).mapError .namespaceFailed
      return ⟨opened.otherNamespaces ++ [ns], opened.userNsEntered || kind = .user⟩

def openOthers (containerPid : Pid) (supported : List Bytes) (opened : OpenedNamespaces) :
    List Kind → Sys SetupError OpenedNamespaces
  | [] => return opened
  | kind :: kinds => do
      let opened ← openOther containerPid supported opened kind
      openOthers containerPid supported opened kinds

def applyAll (namespaces : List Namespace) : Sys NamespaceError Unit :=
  .forEach Namespace.apply namespaces

def enterNamespaces (containerPid : Pid) : Sys SetupError Bool := do
  let supported ← supportedNamespaces.mapError .namespaceFailed
  if Kind.mount.name ∉ supported then .fail .mountNamespaceUnsupported
  else
    let mountNamespace ← (openKind .mount containerPid).mapError .namespaceFailed
    let opened ← openOthers containerPid supported ⟨[], false⟩ otherKinds
    mountNamespace.apply.mapError .namespaceFailed
    (applyAll opened.otherNamespaces).mapError .namespaceFailed
    return opened.userNsEntered

/-- The groups are cleared without regard to whether that succeeds. -/
def setIdentity (processStatus : ProcStatus) : Sys SetupError Unit := do
  let _ ← sys .setThreadGroups
  Program.ofExcept .setGid (← sys (.setThreadGid processStatus.gid))
  Program.ofExcept .setUid (← sys (.setThreadUid processStatus.uid))

def applySecurityContext (processStatus : ProcStatus) (inUserNamespace : Bool) :
    Sys SetupError Unit := do
  if inUserNamespace then setIdentity processStatus
  BoundingSet.drop processStatus.effectiveCapabilities processStatus.lastCap

def enterContainer (processStatus : ProcStatus) : Sys SetupError Unit := do
  let pid ← sys .getpid
  (CgroupManagers.moveTo pid processStatus.globalPid).mapError .cgroup
  let inUserNs ← enterNamespaces processStatus.globalPid
  applySecurityContext processStatus inUserNs

end Cntr.ContainerSetup
