import Cntr.ProcessSystem
import Mathlib.Data.List.Induction

/-!
The children of a process that it has not yet seen end. Only the numbers of these
are kept by the system; any other number may by now be that of another process.
-/

namespace Cntr.UnreapedChildren

open Cntr.ByteText
open Cntr.CallTree
open Cntr.SystemCalls
open Cntr.CallFootprints
open Cntr.CallsMade
open Cntr.ForkingPrograms
open Cntr.HostCalls
open Cntr.IdmapHelperProcess
open Cntr.ProcessRoles
open Cntr.ProcessSystem
open Cntr.PtySession

/-- After this report the number of the child is free again. -/
def final : WaitStatus → Bool
  | .exited _ | .signaled _ => true
  | .stopped _ | .continued => false

/-- The process that a call waits for or sends a signal to. -/
def target : Syscall → Option Pid
  | .kill pid _ | .waitpid pid _ => some pid
  | _ => none

def Owned (children : List Pid) (c : Syscall) : Prop := ∀ pid, target c = some pid → pid ∈ children

/-- The calls that have to do with no other process. -/
def Apart : Syscall → Prop
  | .fork | .kill _ _ | .waitpid _ _ => False
  | _ => True

section Wp

variable {ε ε' α β : Type} {children : List Pid}

end Wp

section Parent

variable {ε : Type} {children : List Pid} {childPid : Pid}

end Parent

section Processes

variable {τ σ : Type}

variable {linked : EntryPoint.Linked τ} {args : List Bytes}

end Processes

section Example

end Example

end Cntr.UnreapedChildren
