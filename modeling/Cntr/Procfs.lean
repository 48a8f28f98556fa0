import Cntr.SystemCalls

namespace Cntr.Procfs

open Cntr.ByteText
open Cntr.CallTree
open Cntr.SystemCalls

def getPath {ε : Type} : Sys ε Path := do
  match ← sys (.getenv (ascii "CNTR_PROC")) with
  | some path => return path
  | none => return ascii "/proc"

theorem getPath_wp {ε : Type} {G : Log → Syscall → Prop} {Q : Outcome Halt ε Path → Log → Prop}
    {log : Log} (hG : G log (.getenv (ascii "CNTR_PROC")))
    (hQ : ∀ path r, Q (.value path) (log ++ [⟨.getenv (ascii "CNTR_PROC"), r⟩])) :
    (getPath (ε := ε)).wp (tracing linux) G Q log := by
  simp only [getPath, Program.bind_eq, Program.wp_call_tracing]
  refine ⟨hG, ?_⟩
  rintro (_ | path)
  · exact hQ _ none
  · exact hQ _ (some path)

/-- The path of procfs, given the value of `CNTR_PROC`. -/
def pathFrom (value : Option Bytes) : Path := value.getD (ascii "/proc")

theorem getPath_yields {ε : Type} (answer : (c : Syscall) → c.Answer) :
    (getPath (ε := ε)).Yields (S := linux) answer
      (.value (pathFrom (answer (.getenv (ascii "CNTR_PROC"))))) := by
  refine .reply (S := linux) rfl ?_
  cases answer (.getenv (ascii "CNTR_PROC")) with
  | none => exact .stop _
  | some path => exact .stop _

end Cntr.Procfs
