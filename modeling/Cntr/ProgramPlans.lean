import Cntr.EntryPoint

/-!
What the arguments of the program tell it to do, apart from how users are looked
up on the way.
-/

namespace Cntr.ProgramPlans

open Cntr.ByteText
open Cntr.CallTree
open Cntr.SystemCalls
open Cntr.CommandLine
open Cntr.EntryPoint
open Cntr.HostCalls
open Cntr.UserLookup

variable {τ : Type}

section Parsing

variable (linked : Linked τ) (db : UserDatabase) {log : List (Event (linuxAndHost τ))}

end Parsing

section Exit

variable (linked : Linked τ) (db : UserDatabase)

variable {linked db} {log log' : List (Event (linuxAndHost τ))}

end Exit

section Example

end Example

end Cntr.ProgramPlans
