import Cntr.PrivateMounts
import Cntr.ProcessSystem

/-!
The mounts of all mount namespaces while the processes of the program run in any
order: those that were there before stay as they are.
-/

namespace Cntr.MountIsolation

open Cntr.ByteText
open Cntr.CallTree
open Cntr.SystemCalls
open Cntr.EntryPoint (plainLinked)
open Cntr.ForkingPrograms
open Cntr.HostCalls
open Cntr.PrivateMounts
open Cntr.ProcessSystem

variable {τ μ : Type}

def hostAfter (view : View) : Event (linuxAndHost τ) → View
  | ⟨.inl c, r⟩ => view.after ⟨c, r⟩
  | ⟨.inr _, _⟩ => view

/-- The view of a process that has made these calls. -/
def viewOf (log : List (Event (linuxAndHost τ))) : View := log.foldl hostAfter View.start

variable {linked : EntryPoint.Linked τ} {args : List Bytes}

section Example

end Example

end Cntr.MountIsolation
