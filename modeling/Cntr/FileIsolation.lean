import Cntr.MountIsolation

/-!
Which files there are on the file systems that were there before, while the processes
of the program run in any order: at most a directory is new.
-/

namespace Cntr.FileIsolation

open Cntr.ByteText
open Cntr.CallTree
open Cntr.SystemCalls
open Cntr.EntryPoint (plainLinked)
open Cntr.ForkingPrograms
open Cntr.HostCalls
open Cntr.MountIsolation
open Cntr.PrivateMounts
open Cntr.ProcessSystem

variable {τ κ : Type}

variable {linked : EntryPoint.Linked τ} {args : List Bytes}

theorem viewOf_concat (log : List (Event (linuxAndHost τ))) (ev : Event (linuxAndHost τ)) :
    viewOf (log ++ [ev]) = hostAfter (viewOf log) ev := by
  rw [viewOf, List.foldl_concat]
  rfl

section Example

end Example

end Cntr.FileIsolation
