import Cntr.Procfs
import Cntr.TextSplitting
import Cntr.WholeWrites

namespace Cntr.CgroupManagers

open Cntr.ByteText
open Cntr.CallTree
open Cntr.SystemCalls
open Cntr.TextSplitting
open Cntr.WholeWrites

inductive CgroupError where
  | openFailed (path : Path) (source : IoError)
  | readFailed (path : Path) (source : IoError)
  | writePid (path : Path) (source : IoError)
  deriving DecidableEq

structure CgroupV1Manager where
  procfsPath : Path

structure CgroupV2Manager where
  mountPath : Path
  procfsPath : Path

structure HybridCgroupManager where
  v1 : CgroupV1Manager
  v2 : CgroupV2Manager

/-- `Box<dyn CgroupManager>`. -/
inductive CgroupManager where
  | v1 (manager : CgroupV1Manager)
  | v2 (manager : CgroupV2Manager)
  | hybrid (manager : HybridCgroupManager)
  | null

/-- An item of `reader.lines()`. -/
def decodeLine : Except IoError Bytes → Except IoError Bytes
  | .ok line => if isUtf8 line then .ok line else .error .invalidData
  | .error e => .error e

/-- `BufReader::new(File::open(path)?)`. -/
def openReader (path : Path) : Sys CgroupError (List (Except IoError Bytes)) := do
  match ← sys (.openLines path) with
  | .ok items => return items
  | .error source => .fail (.openFailed path source)

/-- The lines of a file that is read to its end. -/
def readLines (path : Path) : Sys CgroupError (List Bytes) := do
  let items ← openReader path
  .ofExcept (.readFailed path) (items.mapM decodeLine)

def cgroupsPath : Path := ascii "/proc/cgroups"

def mountinfoPath : Path := ascii "/proc/self/mountinfo"

/-- The name in a line of `/proc/cgroups`, if it is that of an enabled subsystem. -/
def subsystemOf (line : Bytes) : Option Bytes :=
  if line.head? = some 35 then none
  else
    let fields := line.splitOn tab
    if 4 ≤ fields.length ∧ fields.getD 3 [] ≠ ascii "0" then some (fields.getD 0 []) else none

def getSubsystems : Sys CgroupError (List Bytes) := do
  let lines ← readLines cgroupsPath
  return lines.filterMap subsystemOf

/-- `HashMap<String, String>`, from the name of a controller to a mount point. -/
abbrev Mountpoints := Bytes → Option Bytes

/-- The name of a controller in an option of a mount. -/
def optionName (option : Bytes) : Bytes := (stripStart (ascii "name=") option).getD option

def insertOption (subsystems : List Bytes) (mountPoint : Bytes) (mountpoints : Mountpoints)
    (option : Bytes) : Mountpoints :=
  if optionName option ∈ subsystems then
    Function.update mountpoints (optionName option) (some mountPoint)
  else mountpoints

/-- What `get_mounts` makes of a line of mountinfo. -/
def insertMount (subsystems : List Bytes) (mountpoints : Mountpoints) (line : Bytes) :
    Mountpoints :=
  let fields := line.splitOn space
  if fields.length < 11 ∨ fields.getD 9 [] ≠ ascii "cgroup" then mountpoints
  else ((fields.getD 10 []).splitOn comma).foldl
    (insertOption subsystems (fields.getD 4 [])) mountpoints

def getMounts : Sys CgroupError Mountpoints := do
  let subsystems ← getSubsystems
  let lines ← readLines mountinfoPath
  return lines.foldl (insertMount subsystems) fun _ => none

/-- The map that `get_mounts` makes of the lines of its two files. -/
def mountsOf (cgroups mountinfo : List Bytes) : Mountpoints :=
  mountinfo.foldl (insertMount (cgroups.filterMap subsystemOf)) fun _ => none

def cgroupV1Path (cgroup : Bytes) (mountpoints : Mountpoints) : Option Path :=
  (cgroup.splitOn comma).findSome? fun c =>
    (mountpoints c).map fun path => pushPath (pushPath path cgroup) (ascii "tasks")

/-- `self.procfs_path.join(format!("{}/cgroup", pid))`. -/
def cgroupFile (procfsPath : Path) (pid : Pid) : Path :=
  pushPath procfsPath (pid.text ++ ascii "/cgroup")

/-- The field of a line of `/proc/<pid>/cgroup` that `get_cgroups` keeps. -/
def cgroupOf (line : Bytes) : Option Bytes :=
  (splitOnPattern (ascii ":/") 0 line)[1]?

namespace CgroupV1Manager

def getCgroups (manager : CgroupV1Manager) (pid : Pid) : Sys CgroupError (List Bytes) := do
  let lines ← readLines (cgroupFile manager.procfsPath pid)
  return lines.filterMap cgroupOf

/-- `write!(buffer, "{}", pid)`, with the error that v1 makes of it. -/
def writePid (path : Path) (pid : Pid) : Sys CgroupError Unit := do
  match ← writeAll (.atPath path .create) pid.text with
  | .ok () => return ()
  | .error source => .fail (.writePid path source)

/-- The body of the loop of `move_to`. -/
def enter (pid : Pid) (mountpoints : Mountpoints) (cgroup : Bytes) : Sys CgroupError Unit :=
  match cgroupV1Path cgroup mountpoints with
  | none => return ()
  | some path => do
      match ← sys (.openFile path .create) with
      | .ok _ => writePid path pid
      | .error _ => return ()

def moveTo (manager : CgroupV1Manager) (pid targetPid : Pid) : Sys CgroupError Unit := do
  let cgroups ← manager.getCgroups targetPid
  let mountpoints ← getMounts
  .forEach (enter pid mountpoints) cgroups

end CgroupV1Manager

namespace CgroupV2Manager

/-- The loop of `get_cgroup_path`: the first line that starts with `0::`. -/
def findUnified : List (Except IoError Bytes) → Except IoError (Option Bytes)
  | [] => .ok none
  | item :: items =>
      match decodeLine item with
      | .error e => .error e
      | .ok line =>
          match stripStart (ascii "0::") line with
          | some stripped => .ok (some stripped)
          | none => findUnified items

def getCgroupPath (manager : CgroupV2Manager) (pid : Pid) :
    Sys CgroupError (Option Bytes) := do
  let items ← openReader (cgroupFile manager.procfsPath pid)
  .ofExcept (.readFailed (cgroupFile manager.procfsPath pid)) (findUnified items)

def procsPath (manager : CgroupV2Manager) (cgroupPath : Bytes) : Path :=
  pushPath (pushPath manager.mountPath (trimStartMatches slash cgroupPath))
    (ascii "cgroup.procs")

/-- Write the PID, with nothing but a warning if that fails. -/
def tryWrite (pid : Pid) (path : Path) : Sys CgroupError Unit := do
  match ← sys (.openFile path .append) with
  | .ok _ =>
      let _ ← writeAll (.atPath path .append) pid.text
      return ()
  | .error _ => return ()

def moveTo (manager : CgroupV2Manager) (pid targetPid : Pid) : Sys CgroupError Unit := do
  match ← manager.getCgroupPath targetPid with
  | none => return ()
  | some cgroupPath => tryWrite pid (manager.procsPath cgroupPath)

end CgroupV2Manager

def HybridCgroupManager.moveTo (manager : HybridCgroupManager) (pid targetPid : Pid) :
    Sys CgroupError Unit := do
  match ← (manager.v2.moveTo pid targetPid).attempt with
  | .ok () => return ()
  | .error _ => manager.v1.moveTo pid targetPid

def CgroupManager.moveTo (manager : CgroupManager) (pid targetPid : Pid) :
    Sys CgroupError Unit :=
  match manager with
  | .v1 manager => manager.moveTo pid targetPid
  | .v2 manager => manager.moveTo pid targetPid
  | .hybrid manager => manager.moveTo pid targetPid
  | .null => return ()

/-- `has_v1` and `v2_mount` of `create_manager`. -/
structure DetectedMounts where
  hasV1 : Bool
  v2Mount : Option Path

def detectMount (detected : DetectedMounts) (line : Bytes) : DetectedMounts :=
  let fields := line.splitOn space
  if fields.length < 10 then detected
  else if fields.getD 9 [] = ascii "cgroup" then { detected with hasV1 := true }
  else if fields.getD 9 [] = ascii "cgroup2" then
    { detected with v2Mount := some (fields.getD 4 []) }
  else detected

def managerFor (detected : DetectedMounts) (procfsPath : Path) : CgroupManager :=
  match detected.hasV1, detected.v2Mount with
  | true, some mountPath => .hybrid ⟨⟨procfsPath⟩, ⟨mountPath, procfsPath⟩⟩
  | true, none => .v1 ⟨procfsPath⟩
  | false, some mountPath => .v2 ⟨mountPath, procfsPath⟩
  | false, none => .null

def createManager : Sys CgroupError CgroupManager := do
  let lines ← readLines mountinfoPath
  let procfsPath ← Procfs.getPath
  return managerFor (lines.foldl detectMount ⟨false, none⟩) procfsPath

def moveTo (pid targetPid : Pid) : Sys CgroupError Unit := do
  let manager ← createManager
  manager.moveTo pid targetPid

theorem mapM_decodeLine (lines : List Bytes) :
    (lines.map Except.ok).mapM decodeLine =
      if lines.all isUtf8 then .ok lines else .error .invalidData := by
  induction lines with
  | nil => rfl
  | cons line lines ih =>
      rw [List.map_cons, List.mapM_cons, ih, List.all_cons]
      by_cases hline : isUtf8 line
      · by_cases hlines : lines.all isUtf8
        · simp only [decodeLine, hline, hlines, if_true, Bool.and_self]
          rfl
        · simp only [decodeLine, hline, hlines, if_true, Bool.true_and]
          rfl
      · simp only [decodeLine, hline, Bool.false_and]
        rfl

theorem eq_of_mapM_decodeLine {lines lines' : List Bytes}
    (h : (lines.map Except.ok).mapM decodeLine = .ok lines') : lines' = lines := by
  rw [mapM_decodeLine] at h
  split at h
  · simpa using h.symm
  · simp at h

/-- How reading a file ends, given what there is to read. -/
def readOutcome (path : Path) (r : Except IoError (List (Except IoError Bytes))) :
    Outcome Halt CgroupError (List Bytes) :=
  match r with
  | .error e => .error (.openFailed path e)
  | .ok items =>
      match items.mapM decodeLine with
      | .error e => .error (.readFailed path e)
      | .ok lines => .value lines

theorem readOutcome_ok (path : Path) (lines : List Bytes) :
    readOutcome path (.ok (lines.map .ok)) =
      if lines.all isUtf8 then .value lines else .error (.readFailed path .invalidData) := by
  rw [readOutcome, mapM_decodeLine]
  by_cases hutf8 : lines.all isUtf8 = true
  · rw [if_pos hutf8, if_pos hutf8]
  · rw [if_neg hutf8, if_neg hutf8]

theorem openReader_wp {path : Path} {G : Log → Syscall → Prop}
    {Q : Outcome Halt CgroupError (List (Except IoError Bytes)) → Log → Prop}
    {log : Log} (hG : G log (.openLines path))
    (hfail : ∀ e, Q (.error (.openFailed path e)) (log ++ [⟨.openLines path, .error e⟩]))
    (hopen : ∀ items, Q (.value items) (log ++ [⟨.openLines path, .ok items⟩])) :
    (openReader path).wp (tracing linux) G Q log := by
  simp only [openReader, Program.bind_eq, Program.wp_call_tracing]
  refine ⟨hG, ?_⟩
  rintro (e | items)
  · exact hfail e
  · exact hopen items

theorem readLines_wp {path : Path} {G : Log → Syscall → Prop}
    {Q : Outcome Halt CgroupError (List Bytes) → Log → Prop} {log : Log}
    (hG : G log (.openLines path))
    (hread : ∀ r, Q (readOutcome path r) (log ++ [⟨.openLines path, r⟩])) :
    (readLines path).wp (tracing linux) G Q log := by
  rw [readLines, Program.bind_eq, Program.wp_bind]
  refine openReader_wp hG (fun e => hread (.error e)) fun items => ?_
  have hitems := hread (.ok items)
  rw [readOutcome] at hitems
  rw [Outcome.andThen_value]
  cases hlines : items.mapM decodeLine with
  | error e =>
      rw [hlines] at hitems
      exact hitems
  | ok lines =>
      rw [hlines] at hitems
      exact hitems

theorem readLines_run {path : Path} {log log' : Log} {o : Outcome Halt CgroupError (List Bytes)}
    (run : (readLines path).Runs (tracing linux) log o log') :
    ∃ r, o = readOutcome path r ∧ log' = log ++ [⟨.openLines path, r⟩] :=
  run.of_wp (G := fun _ _ => True)
    (Q := fun o log' => ∃ r, o = readOutcome path r ∧ log' = log ++ [⟨.openLines path, r⟩])
    (readLines_wp trivial fun r => ⟨r, rfl, rfl⟩)

theorem readLines_bind_wp {path : Path} {G : Log → Syscall → Prop} {β : Type}
    {f : List Bytes → Sys CgroupError β} {Q : Outcome Halt CgroupError β → Log → Prop}
    {log : Log} (hG : G log (.openLines path))
    (hfail : ∀ r e, readOutcome path r = .error e → Q (.error e) (log ++ [⟨.openLines path, r⟩]))
    (hread : ∀ items lines, items.mapM decodeLine = .ok lines →
      (f lines).wp (tracing linux) G Q (log ++ [⟨.openLines path, .ok items⟩])) :
    ((readLines path).bind f).wp (tracing linux) G Q log := by
  rw [Program.wp_bind]
  refine readLines_wp hG fun r => ?_
  cases r with
  | error e => exact hfail (.error e) _ rfl
  | ok items =>
      cases hlines : items.mapM decodeLine with
      | error e =>
          have houtcome : readOutcome path (.ok items) = .error (.readFailed path e) := by
            rw [readOutcome, hlines]
          rw [houtcome]
          exact hfail _ _ houtcome
      | ok lines =>
          have houtcome : readOutcome path (.ok items) = .value lines := by
            rw [readOutcome, hlines]
          rw [houtcome]
          exact hread items lines hlines

theorem readLines_runs (path : Path) (r : Except IoError (List (Except IoError Bytes)))
    (log : Log) :
    (readLines path).Runs (tracing linux) log (readOutcome path r)
      (log ++ [⟨.openLines path, r⟩]) := by
  have hopen : ∀ items, (openReader path).Runs (tracing linux) log (.value items)
      (log ++ [⟨.openLines path, .ok items⟩]) := by
    intro items
    exact .call (S := linux) (.openLines path) (.ok items) (.stop _ _)
  cases r with
  | error e =>
      have hrefused : (openReader path).Runs (tracing linux) log (.error (.openFailed path e))
          (log ++ [⟨.openLines path, .error e⟩]) := by
        exact .call (S := linux) (.openLines path) (.error e) (.stop _ _)
      exact hrefused.bind_error
  | ok items =>
      refine (hopen items).bind ?_
      rw [readOutcome]
      cases items.mapM decodeLine with
      | error e => exact .stop _ _
      | ok lines => exact .stop _ _

end Cntr.CgroupManagers
