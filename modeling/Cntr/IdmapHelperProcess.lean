import Cntr.WholeWrites

namespace Cntr.IdmapHelperProcess

open Cntr.ByteText
open Cntr.CallTree
open Cntr.SystemCalls
open Cntr.WholeWrites

inductive IdmapError where
  | createPipe (source : Errno)
  | fork (source : Errno)
  | readFromHelper (source : IoError)
  | helperNotReady (bytesRead : Nat)
  | openUserns (path : Path) (source : IoError)
  | unshareUserns (source : Errno)
  | writeIdMap (path : Path) (source : IoError)
  deriving DecidableEq

/-- The helper process and its user namespace. -/
structure IdmapHelper where
  pid : Pid
  usernsFd : NsId

structure IdMapping where
  innerUid : Nat
  outerUid : Nat
  innerGid : Nat
  outerGid : Nat

def idMap (inner outer : Nat) : Bytes :=
  decimal inner ++ ascii " " ++ decimal outer ++ ascii " 1\n"

def writeIdMap (path : Path) (contents : Bytes) : Sys IdmapError Unit := do
  Program.ofExcept (.writeIdMap path) (← sys (.writePath path contents))

def setupUserns (mapping : IdMapping) : Sys IdmapError Unit := do
  Program.ofExcept .unshareUserns (← sys .unshareUser)
  let _ ← sys (.writePath (ascii "/proc/self/setgroups") (ascii "deny"))
  writeIdMap (ascii "/proc/self/uid_map") (idMap mapping.innerUid mapping.outerUid)
  writeIdMap (ascii "/proc/self/gid_map") (idMap mapping.innerGid mapping.outerGid)

def sleepRound {ε : Type} : Sys ε (Unit ⊕ Empty) := do
  let _ ← sys .sleep
  return .inl ()

def sleepForever {ε : Type} : Sys ε Empty := .iterate (fun _ : Unit => sleepRound) () .done

/-- The helper process after the fork. -/
def helperProcess (mapping : IdMapping) (readFd writeFd : Fd) : Sys IdmapError Empty := do
  sys (.closeFd readFd)
  match ← (setupUserns mapping).attempt with
  | .error _ => .halt (.exited 1)
  | .ok () =>
      match ← writeAll (.syncPipe writeFd) (ascii "R") with
      | .error _ => .halt (.exited 1)
      | .ok () => sleepForever

def usernsPath (child : Pid) : Path := ascii "/proc/" ++ child.text ++ ascii "/ns/user"

/-- The process that forked the helper, after the fork. -/
def awaitHelper (child : Pid) (readFd writeFd : Fd) : Sys IdmapError IdmapHelper := do
  sys (.closeFd writeFd)
  let buf ← Program.ofExcept .readFromHelper (← sys (.read (.syncPipe readFd) 1))
  if buf.val.length ≠ 1 then .fail (.helperNotReady buf.val.length)
  else
    sys (.closeFd readFd)
    let usernsFd ← Program.ofExcept (.openUserns (usernsPath child))
      (← sys (.openNamespace (ascii "/proc") child .user))
    return ⟨child, usernsFd⟩

def afterFork (mapping : IdMapping) (readFd writeFd : Fd) : Fork → Sys IdmapError IdmapHelper
  | .parentOf child => awaitHelper child readFd writeFd
  | .child => do
      let never ← helperProcess mapping readFd writeFd
      nomatch never

def IdmapHelper.new (mapping : IdMapping) : Sys IdmapError IdmapHelper := do
  let (readFd, writeFd) ← Program.ofExcept .createPipe (← sys .pipe)
  let fork ← Program.ofExcept .fork (← sys .fork)
  afterFork mapping readFd writeFd fork

/-- `Drop`: kill the helper and reap it. -/
def IdmapHelper.drop {ε : Type} (helper : IdmapHelper) : Sys ε Unit := do
  let _ ← sys (.kill helper.pid .kill)
  let _ ← sys (.waitpid helper.pid false)
  return ()

end Cntr.IdmapHelperProcess
