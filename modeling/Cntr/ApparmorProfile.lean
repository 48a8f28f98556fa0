import Cntr.Procfs
import Cntr.TextSplitting
import Cntr.WhiteSpaceText
import Cntr.WholeWrites

namespace Cntr.ApparmorProfile

open Cntr.ByteText
open Cntr.CallTree
open Cntr.SystemCalls
open Cntr.TextSplitting
open Cntr.WhiteSpaceText
open Cntr.WholeWrites

inductive ApparmorMode where
  | auto
  | off
  deriving DecidableEq

inductive LsmError where
  | readEnabled (path : Path) (source : IoError)
  | openProfile (path : Path) (source : IoError)
  | readProfile (path : Path) (source : IoError)
  | writeProfile (attr : Bytes) (source : IoError)
  deriving DecidableEq

structure LSMProfile where
  label : Bytes
  ownPath : Path

def enabledPath : Path := ascii "/sys/module/apparmor/parameters/enabled"

def isApparmorEnabled : Sys LsmError Bool := do
  match ← sys (.openFile enabledPath .read) with
  | .ok _ =>
      let res ← sys (.readToEnd (.atPath enabledPath .read))
      let contents ← Program.ofExcept (.readEnabled enabledPath) (decodeText res)
      return contents = ascii "Y\n"
  | .error source =>
      if source = .notFound then return false else .fail (.readEnabled enabledPath source)

def attributePath (procfsPath : Path) (pid : Option Pid) : Path :=
  let process := match pid with
    | some pid => pid.text
    | none => ascii "self"
  pushPath (pushPath procfsPath process) (ascii "attr/apparmor/current")

def apparmorProfilePath (pid : Option Pid) : Sys LsmError Path := do
  let procfsPath ← Procfs.getPath
  return attributePath procfsPath pid

/-- The profile name in an attribute. -/
def labelOf (attr : Bytes) : Bytes := (splitn space 2 (trimEnd attr)).getD 0 []

def readApparmorLabel (path : Path) : Sys LsmError Bytes := do
  Program.ofExcept (.openProfile path) (← sys (.openFile path .read))
  let res ← sys (.readToEnd (.atPath path .read))
  let attr ← Program.ofExcept (.readProfile path) (decodeText res)
  return labelOf attr

def readProfile (pid : Pid) (apparmorMode : ApparmorMode) :
    Sys LsmError (Option LSMProfile) := do
  if apparmorMode = .off then return none
  else if !(← isApparmorEnabled) then return none
  else
    let targetPath ← apparmorProfilePath (some pid)
    let targetLabel ← readApparmorLabel targetPath
    let ownPath ← apparmorProfilePath none
    let ownLabel ← readApparmorLabel ownPath
    if targetLabel = ownLabel then return none
    else return some ⟨targetLabel, ownPath⟩

def changeProfile (label : Bytes) : Bytes := ascii "changeprofile " ++ label

def LSMProfile.inheritProfile (profile : LSMProfile) : Sys LsmError Unit := do
  Program.ofExcept (.openProfile profile.ownPath)
    (← sys (.openFile profile.ownPath .write))
  let attr := changeProfile profile.label
  let res ← writeAll (.atPath profile.ownPath .write) attr
  .ofExcept (.writeProfile attr) res

end Cntr.ApparmorProfile
