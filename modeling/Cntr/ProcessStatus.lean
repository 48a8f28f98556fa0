import Cntr.ContainerSetup
import Cntr.IdTranslation

namespace Cntr.ProcessStatus

open Cntr.ByteText
open Cntr.CallTree
open Cntr.SystemCalls
open Cntr.ApparmorProfile
open Cntr.CgroupManagers (decodeLine)
open Cntr.ContainerSetup
open Cntr.IdTranslation
open Cntr.NumberParsing
open Cntr.WhiteSpaceText

def parseCapability (path : Path) (capString : Bytes) : Except ProcfsError UInt64 :=
  (parseU64 16 capString).mapError (.parse (ascii "capability") path capString)

/-- The body of the loop over the lines of `status`. -/
def scanLine (path : Path) (effectiveCaps : Option UInt64) (line : Bytes) :
    Except ProcfsError (Option UInt64) :=
  let columns := line.splitOn tab
  if columns.length < 2 then .error (.malformedStatusLine path columns.length line)
  else if columns.getD 0 [] = ascii "CapEff:" then
    match columns.getLast? with
    | some capString => (parseCapability path capString).map some
    | none => .ok effectiveCaps
  else .ok effectiveCaps

def scanItems (path : Path) :
    Option UInt64 → List (Except IoError Bytes) → Except ProcfsError (Option UInt64)
  | effectiveCaps, [] => .ok effectiveCaps
  | effectiveCaps, item :: items =>
      match decodeLine item with
      | .error source => .error (.readFailed path source)
      | .ok line =>
          match scanLine path effectiveCaps line with
          | .error e => .error e
          | .ok effectiveCaps => scanItems path effectiveCaps items

/-- The mask of the last line about the effective capabilities. -/
def effectiveMask (path : Path) (items : List (Except IoError Bytes)) :
    Except ProcfsError UInt64 :=
  match scanItems path none items with
  | .error e => .error e
  | .ok none => .error (.missingCapEff path)
  | .ok (some mask) => .ok mask

def readEffectiveCapabilities (path : Path) : Sys ProcfsError UInt64 := do
  let items ← Program.ofExcept (.openFailed path) (← sys (.openLines path))
  .ofExcept id (effectiveMask path items)

def lastCapPath (procfsPath : Path) : Path := pushPath procfsPath (ascii "sys/kernel/cap_last_cap")

def parseLastCap (path : Path) (contents : Bytes) : Except ProcfsError UInt64 :=
  (parseU64 10 (trim contents)).mapError
    (.parse (ascii "last capability value") path (trim contents))

def readLastCap : Sys ProcfsError UInt64 := do
  let procfsPath ← Procfs.getPath
  let contents ← readText (lastCapPath procfsPath)
  .ofExcept id (parseLastCap (lastCapPath procfsPath) contents)

/-- The directory of a process below `procfsPath`. -/
def procDir (procfsPath : Path) (pid : Pid) : Path := pushPath procfsPath pid.text

def statusPath (procfsPath : Path) (pid : Pid) : Path :=
  pushPath (procDir procfsPath pid) (ascii "status")

def mapPath (procfsPath : Path) (pid : Pid) (name : Bytes) : Path :=
  pushPath (procDir procfsPath pid) name

def status (targetPid : Pid) (apparmorMode : ApparmorMode) : Sys ProcfsError ProcStatus := do
  let procfsPath ← Procfs.getPath
  let effectiveCapabilities ← readEffectiveCapabilities (statusPath procfsPath targetPid)
  let lastCap ← readLastCap
  let procfsPath ← Procfs.getPath
  let metadata ← Program.ofExcept (.metadata (procDir procfsPath targetPid))
    (← sys (.metadata (procDir procfsPath targetPid)))
  let containerUid ← translateId (mapPath procfsPath targetPid (ascii "uid_map")) metadata.uid
  let containerGid ← translateId (mapPath procfsPath targetPid (ascii "gid_map")) metadata.gid
  let lsmProfile ← (readProfile targetPid apparmorMode).mapError .lsm
  return ⟨targetPid, effectiveCapabilities.toBitVec, lastCap.toNat, containerUid.toNat,
    containerGid.toNat, lsmProfile⟩

end Cntr.ProcessStatus
