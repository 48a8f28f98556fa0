import Cntr.AttachChild

namespace Cntr.AttachParent

open Cntr.ByteText
open Cntr.CallTree
open Cntr.SystemCalls
open Cntr.AttachChild
open Cntr.ContainerSetup (ProcStatus)
open Cntr.IdmapHelperProcess
open Cntr.PtySession
open Cntr.ReadySocket

structure User where
  uid : Nat
  gid : Nat
  dir : Path

structure AttachOptions where
  command : Option Bytes
  arguments : List Bytes
  effectiveUser : Option User

/-- `parent::run` once the message is received. -/
def manageChild (childPid : Pid) (message : Bytes × List Fd) : Sys AttachError Empty :=
  if message.1.head? ≠ some 82 then .fail .childNotReady
  else
    match message.2 with
    | [] => (waitForChild childPid).mapError .pty
    | ptyFd :: _ => (forwardPtyAndWait ptyFd childPid).mapError .pty

def run (childPid : Pid) : Sys AttachError Empty := do
  let message ← (receive 1).mapError .ipc
  manageChild childPid message

def idMappingFor (user : User) (currentUid currentGid : Nat) : IdMapping where
  innerUid := user.uid
  outerUid := currentUid
  innerGid := user.gid
  outerGid := currentGid

def createHelper : Option User → Sys AttachError (Option IdmapHelper)
  | none => return none
  | some user => do
      let currentUid ← sys .getuid
      let currentGid ← sys .getgid
      let helper ← (IdmapHelper.new (idMappingFor user currentUid currentGid)).mapError
        .idmapHelper
      return some helper

def childOptions (opts : AttachOptions) (processStatus : ProcStatus)
    (idmapHelper : Option IdmapHelper) : ChildOptions where
  command := opts.command
  arguments := opts.arguments
  processStatus := processStatus
  usernsFd := idmapHelper.map IdmapHelper.usernsFd
  effectiveHome := opts.effectiveUser.map User.dir

/-- The child after the fork: an error ends it with the exit code 1. -/
def childBranch (options : ChildOptions) : Sys AttachError Empty := do
  sys (.dropSocket .parent)
  let _ : Except AttachError Empty ← (AttachChild.run options).attempt
  .halt (.exited 1)

def parentBranch (childPid : Pid) : Sys AttachError Empty := do
  sys (.dropSocket .child)
  run childPid

def afterFork (options : ChildOptions) : Fork → Sys AttachError Empty
  | .parentOf childPid => parentBranch childPid
  | .child => childBranch options

/-- What happens while `idmap_helper` is alive. -/
def attachWithHelper (options : ChildOptions) : Sys AttachError Empty := do
  socketPair.mapError .ipc
  let fork ← Program.ofExcept .fork (← sys .fork)
  afterFork options fork

def dropHelper : Option IdmapHelper → Sys AttachError Unit
  | none => return ()
  | some helper => helper.drop

/-- `attach` from the moment at which the container is found. Whatever error the
attaching ends with, the helper is dropped on the way out. -/
def attach (opts : AttachOptions) (processStatus : ProcStatus) : Sys AttachError Empty := do
  let idmapHelper ← createHelper opts.effectiveUser
  let res ← (attachWithHelper (childOptions opts processStatus idmapHelper)).attempt
  dropHelper idmapHelper
  Program.ofExcept id res

end Cntr.AttachParent
