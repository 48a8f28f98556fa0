import Cntr.ApparmorProfile
import Cntr.NumberParsing
import Cntr.WhiteSpaceText

namespace Cntr.IdTranslation

open Cntr.ByteText
open Cntr.CallTree
open Cntr.SystemCalls
open Cntr.ApparmorProfile
open Cntr.NumberParsing
open Cntr.WhiteSpaceText

inductive ProcfsError where
  | openFailed (path : Path) (source : IoError)
  | readFailed (path : Path) (source : IoError)
  | parse (what : Bytes) (path : Path) (value : Bytes) (source : ParseIntError)
  | idOverflow (path : Path) (innerStart offset : UInt32)
  | malformedStatusLine (path : Path) (columns : Nat) (line : Bytes)
  | missingCapEff (path : Path)
  | metadata (path : Path) (source : IoError)
  | lsm (source : LsmError)
  deriving DecidableEq

def readText (path : Path) : Sys ProcfsError Bytes := do
  let contents ← sys (.readToString path)
  .ofExcept (.readFailed path) (decodeText contents)

/-- The closure `parse` of `translate_id`. -/
def parseId (mapPath : Path) (what value : Bytes) : Except ProcfsError UInt32 :=
  (parseU32 value).mapError (.parse what mapPath value)

/-- The inner ID that a range gives to the outer ID, if the range covers it. -/
def translateInRange (mapPath : Path) (outerId innerStart outerStart length : UInt32) :
    Except ProcfsError (Option UInt32) :=
  if outerStart ≤ outerId then
    let offset := outerId - outerStart
    if offset < length then
      if innerStart.toNat + offset.toNat < UInt32.size then .ok (some (innerStart + offset))
      else .error (.idOverflow mapPath innerStart offset)
    else .ok none
  else .ok none

/-- The body of the loop over the lines: `none` goes on with the next line. -/
def translateLine (mapPath : Path) (outerId : UInt32) (line : Bytes) :
    Except ProcfsError (Option UInt32) :=
  match splitWhitespace line with
  | [inner, outer, len] => do
      let innerStart ← parseId mapPath (ascii "inner ID") inner
      let outerStart ← parseId mapPath (ascii "outer ID") outer
      let length ← parseId mapPath (ascii "length") len
      translateInRange mapPath outerId innerStart outerStart length
  | _ => .ok none

/-- An ID that no line covers is used as it is. -/
def translateLines (mapPath : Path) (outerId : UInt32) : List Bytes → Except ProcfsError UInt32
  | [] => .ok outerId
  | line :: lines =>
      match translateLine mapPath outerId line with
      | .error e => .error e
      | .ok (some inner) => .ok inner
      | .ok none => translateLines mapPath outerId lines

def translateId (mapPath : Path) (outerId : UInt32) : Sys ProcfsError UInt32 := do
  let contents ← readText mapPath
  .ofExcept id (translateLines mapPath outerId (linesOf contents))

theorem readText_wp {path : Path} {G : Log → Syscall → Prop}
    {Q : Outcome Halt ProcfsError Bytes → Log → Prop} {log : Log}
    (hG : G log (.readToString path))
    (hfail : ∀ r e, decodeText r = .error e →
      Q (.error (.readFailed path e)) (log ++ [⟨.readToString path, r⟩]))
    (hread : ∀ contents, isUtf8 contents = true →
      Q (.value contents) (log ++ [⟨.readToString path, .ok contents⟩])) :
    (readText path).wp (tracing linux) G Q log := by
  rw [readText, Program.bind_eq, Program.wp_call_tracing]
  refine ⟨hG, ?_⟩
  rintro (e | contents)
  · exact hfail (.error e) e rfl
  · by_cases hutf8 : isUtf8 contents = true
    · rw [decodeText_ok hutf8]
      exact hread contents hutf8
    · have hdecoded : decodeText (.ok contents) = .error .invalidData := if_neg hutf8
      rw [hdecoded]
      exact hfail _ _ hdecoded

theorem readText_runs {path : Path} {contents : Bytes} (hutf8 : isUtf8 contents = true)
    (log : Log) :
    (readText path).Runs (tracing linux) log (.value contents)
      (log ++ [⟨.readToString path, .ok contents⟩]) := by
  refine .call (S := linux) (.readToString path) (.ok contents) ?_
  rw [decodeText_ok hutf8]
  exact .stop _ _

/-- How the translation ends once the map was read. -/
def translated (mapPath : Path) (outerId : UInt32) (contents : Bytes) :
    Outcome Halt ProcfsError UInt32 :=
  match translateLines mapPath outerId (linesOf contents) with
  | .ok inner => .value inner
  | .error e => .error e

theorem translateId_wp {mapPath : Path} {outerId : UInt32} {G : Log → Syscall → Prop}
    {Q : Outcome Halt ProcfsError UInt32 → Log → Prop} {log : Log}
    (hG : G log (.readToString mapPath))
    (hfail : ∀ r e, decodeText r = .error e →
      Q (.error (.readFailed mapPath e)) (log ++ [⟨.readToString mapPath, r⟩]))
    (hread : ∀ contents, isUtf8 contents = true →
      Q (translated mapPath outerId contents)
        (log ++ [⟨.readToString mapPath, .ok contents⟩])) :
    (translateId mapPath outerId).wp (tracing linux) G Q log := by
  rw [translateId, Program.bind_eq, Program.wp_bind]
  refine readText_wp hG hfail fun contents hutf8 => ?_
  have hQ := hread contents hutf8
  rw [translated] at hQ
  rw [Outcome.andThen_value]
  cases hlines : translateLines mapPath outerId (linesOf contents) with
  | error e =>
      rw [hlines] at hQ
      exact hQ
  | ok inner =>
      rw [hlines] at hQ
      exact hQ

theorem translateId_runs_iff {mapPath : Path} {outerId : UInt32} {contents : Bytes}
    (hutf8 : isUtf8 contents = true) (log : Log) (o : Outcome Halt ProcfsError UInt32) :
    (translateId mapPath outerId).Runs (tracing linux) log o
        (log ++ [⟨.readToString mapPath, .ok contents⟩]) ↔
      o = translated mapPath outerId contents := by
  constructor
  · intro run
    have hwp : (translateId mapPath outerId).wp (tracing linux) (fun _ _ => True)
        (fun o log' => log' = log ++ [⟨.readToString mapPath, .ok contents⟩] →
          o = translated mapPath outerId contents) log := by
      refine translateId_wp trivial ?_ ?_
      · intro r e hr hlog
        obtain rfl : r = .ok contents := by simpa using hlog
        rw [decodeText_ok hutf8] at hr
        cases hr
      · intro contents' _ hlog
        obtain rfl : contents' = contents := by simpa using hlog
        rfl
    exact run.of_wp hwp rfl
  · rintro rfl
    refine (readText_runs hutf8 log).bind ?_
    rw [translated]
    cases translateLines mapPath outerId (linesOf contents) with
    | ok inner => exact .stop _ _
    | error e => exact .stop _ _

section Replies

variable {answer : (c : Syscall) → c.Answer} {path : Path} {contents : Bytes}

theorem readText_yields (hread : answer (.readToString path) = .ok contents)
    (hutf8 : isUtf8 contents = true) :
    (readText path).Yields (S := linux) answer (.value contents) := by
  refine .reply (S := linux) hread ?_
  rw [decodeText_ok hutf8]
  exact .stop _

theorem translateId_yields (hread : answer (.readToString path) = .ok contents)
    (hutf8 : isUtf8 contents = true) (outerId : UInt32) :
    (translateId path outerId).Yields (S := linux) answer (translated path outerId contents) := by
  refine .bind (readText_yields hread hutf8) ?_
  rw [translated]
  cases translateLines path outerId (linesOf contents) with
  | ok inner => exact .stop _
  | error e => exact .stop _

end Replies

end Cntr.IdTranslation
