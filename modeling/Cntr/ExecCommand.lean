import Cntr.CommandExecution
import Cntr.ContainerSetup
import Cntr.PtySession

namespace Cntr.ExecCommand

open Cntr.ByteText
open Cntr.CallTree
open Cntr.SystemCalls
open Cntr.CommandExecution
open Cntr.ContainerSetup
open Cntr.PtySession

inductive ExecError where
  | fork (source : Errno)
  | pty (source : PtyError)
  | cmd (source : CmdError)
  | setup (source : SetupError)
  deriving DecidableEq

structure ExecOptions where
  command : Option Bytes
  arguments : List Bytes

def attachPtySlave : Option Fd → Sys ExecError Unit
  | some ptyMaster => (attachPts ptyMaster).mapError .pty
  | none => return ()

def execChild (processStatus : ProcStatus) (exe : Option Bytes) (args : List Bytes)
    (ptyMaster : Option Fd) : Sys ExecError Empty := do
  attachPtySlave ptyMaster
  let exe := exe.or (some (ascii "/bin/sh"))
  let cmd ← (Cmd.new exe args processStatus.globalPid none).mapError .cmd
  (enterContainer processStatus).mapError .setup
  (cmd.execInContainer processStatus.lsmProfile).mapError .cmd

def createPty : Sys ExecError (Option Fd) := do
  if ← stdioIsTty then
    let ptyMaster ← openPtm.mapError .pty
    return some ptyMaster
  else return none

/-- The child after the fork: an error ends it with the exit code 1. -/
def childBranch (opts : ExecOptions) (processStatus : ProcStatus) (ptyMaster : Option Fd) :
    Sys ExecError Empty := do
  let _ : Except ExecError Empty ←
    (execChild processStatus opts.command opts.arguments ptyMaster).attempt
  .halt (.exited 1)

def parentBranch (ptyMaster : Option Fd) (childPid : Pid) : Sys ExecError Empty :=
  match ptyMaster with
  | some ptyMaster => (forwardPtyAndWait ptyMaster childPid).mapError .pty
  | none => (waitForChild childPid).mapError .pty

def afterFork (opts : ExecOptions) (processStatus : ProcStatus) (ptyMaster : Option Fd) :
    Fork → Sys ExecError Empty
  | .parentOf childPid => parentBranch ptyMaster childPid
  | .child => childBranch opts processStatus ptyMaster

/-- `exec` from the moment at which the container is found. -/
def exec (opts : ExecOptions) (processStatus : ProcStatus) : Sys ExecError Empty := do
  let ptyMaster ← createPty
  let fork ← Program.ofExcept .fork (← sys .fork)
  afterFork opts processStatus ptyMaster fork

end Cntr.ExecCommand
