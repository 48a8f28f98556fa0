import Cntr.CgroupV1Migration

namespace Cntr.HybridFallback

open Cntr.ByteText
open Cntr.CallTree
open Cntr.SystemCalls
open Cntr.WholeWrites
open Cntr.CgroupManagers
open Cntr.CgroupV1Migration

/-- What reading `/proc/<pid>/cgroup` tells of the unified hierarchy. -/
def unifiedPath (read : Except IoError (List (Except IoError Bytes))) :
    Except IoError (Option Bytes) :=
  match read with
  | .ok items => CgroupV2Manager.findUnified items
  | .error e => .error e

/-- What `move_to` of the v2 manager does with what it read, and how it ends. -/
inductive V2Ended (manager : CgroupV2Manager) (pid : Pid) :
    Except IoError (Option Bytes) → Outcome Halt CgroupError Unit → Log → Prop where
  | unreadable {e : IoError} {err : CgroupError} :
      V2Ended manager pid (.error e) (.error err) []
  | absent : V2Ended manager pid (.ok none) (.value ()) []
  | refused {path : Bytes} {e : IoError} :
      V2Ended manager pid (.ok (some path)) (.value ())
        [⟨.openFile (manager.procsPath path) .append, .error e⟩]
  | opened {path : Bytes} {res : Except IoError Unit} {writes : Log}
      (written : WholeWrite (.atPath (manager.procsPath path) .append) pid.text res writes) :
      V2Ended manager pid (.ok (some path)) (.value ())
        (⟨.openFile (manager.procsPath path) .append, .ok ()⟩ :: writes)

/-- The first call, the answer to it and what follows. -/
def V2Calls (manager : CgroupV2Manager) (pid targetPid : Pid)
    (o : Outcome Halt CgroupError Unit) (log : Log) : Prop :=
  ∃ r rest, log = ⟨.openLines (cgroupFile manager.procfsPath targetPid), r⟩ :: rest ∧
    V2Ended manager pid (unifiedPath r) o rest

theorem v2_moveTo_wp {manager : CgroupV2Manager} {pid targetPid : Pid} :
    (manager.moveTo pid targetPid).wp (tracing linux) (fun _ _ => True)
      (V2Calls manager pid targetPid) [] := by
  simp only [CgroupV2Manager.moveTo, CgroupV2Manager.getCgroupPath, Program.bind_eq,
    Program.wp_bind]
  refine openReader_wp trivial (fun e => ?_) fun items => ?_
  · exact ⟨.error e, [], rfl, .unreadable⟩
  rw [Outcome.andThen_value]
  cases hfind : CgroupV2Manager.findUnified items with
  | error e =>
      refine ⟨.ok items, [], rfl, ?_⟩
      rw [unifiedPath, hfind]
      exact .unreadable
  | ok found =>
      cases found with
      | none =>
          refine ⟨.ok items, [], rfl, ?_⟩
          rw [unifiedPath, hfind]
          exact .absent
      | some path =>
          simp only [Program.ofExcept, CgroupV2Manager.tryWrite, Program.bind_eq,
            Program.wp_stop, Outcome.andThen_value, Program.wp_call_tracing]
          refine ⟨trivial, ?_⟩
          rintro (e | _)
          · refine ⟨.ok items, _, rfl, ?_⟩
            rw [unifiedPath, hfind]
            exact .refused
          · rw [Program.wp_bind]
            refine writeAll_wp (fun _ _ _ _ => trivial) fun res writes hwrites => ?_
            refine ⟨.ok items, _, rfl, ?_⟩
            rw [unifiedPath, hfind]
            exact .opened hwrites

/-- The two ways to an `Ok`: the v2 manager returned it, or the v1 manager did
after the v2 manager failed. -/
theorem ended_of_run {manager : HybridCgroupManager} {pid targetPid : Pid} {log : Log}
    (run : (manager.moveTo pid targetPid).Runs (tracing linux) [] (.value ()) log) :
    V2Calls manager.v2 pid targetPid (.value ()) log ∨
    ∃ r e, unifiedPath r = .error e ∧ (manager.v1.moveTo pid targetPid).Runs (tracing linux)
      [⟨.openLines (cgroupFile manager.v2.procfsPath targetPid), r⟩] (.value ()) log := by
  rw [HybridCgroupManager.moveTo, Program.bind_eq] at run
  rcases run.of_bind with ⟨res, before, first, rest⟩ | ⟨e, he, -⟩ | ⟨h, hh, -⟩
  · obtain ⟨o, ho, v2run⟩ := first.of_attempt
    have hcalls := v2run.of_wp v2_moveTo_wp
    cases o with
    | value u =>
        obtain rfl : Except.ok () = res := by simpa [Outcome.attempt] using ho
        cases rest
        exact .inl hcalls
    | error err =>
        obtain rfl : Except.error err = res := by simpa [Outcome.attempt] using ho
        obtain ⟨r, v2rest, rfl, hended⟩ := hcalls
        generalize hread : unifiedPath r = read at hended
        cases hended with
        | unreadable => exact .inr ⟨r, _, hread, rest⟩
    | halted h =>
        obtain ⟨r, v2rest, rfl, hended⟩ := hcalls
        generalize unifiedPath r = read at hended
        cases hended
  · cases he
  · cases hh

def EnteredUnified (manager : CgroupV2Manager) (pid targetPid : Pid) (log : Log) : Prop :=
  ∃ r path, ⟨.openLines (cgroupFile manager.procfsPath targetPid), r⟩ ∈ log ∧
    unifiedPath r = .ok (some path) ∧
    ⟨.openFile (manager.procsPath path) .append, .ok ()⟩ ∈ log ∧
    writtenTo (.atPath (manager.procsPath path) .append) log = pid.text

/-- The run ends with a migration by the v1 manager. -/
def FellBack (manager : CgroupV1Manager) (pid targetPid : Pid) (log : Log) : Prop :=
  ∃ before, (manager.moveTo pid targetPid).Runs (tracing linux) before (.value ()) log

theorem FellBack.reads {manager : CgroupV1Manager} {pid targetPid : Pid} {log : Log}
    (h : FellBack manager pid targetPid log) : ∃ r, ⟨.openLines cgroupsPath, r⟩ ∈ log := by
  obtain ⟨before, run⟩ := h
  obtain ⟨calls, rfl, hmoved⟩ := moved_of_run run
  obtain ⟨items, lines, mountpoints, reads, entries, rfl, -, hreads, -⟩ := hmoved.of_value
  obtain ⟨subsystems, mountinfo, lines, infoLines, rfl, -, -, -⟩ := hreads
  exact ⟨.ok subsystems, by simp⟩

theorem cgroupFile_ne_cgroupsPath (procfsPath : Path) (pid : Pid) :
    cgroupFile procfsPath pid ≠ cgroupsPath := by
  have hfront : ∃ front, cgroupFile procfsPath pid = front ++ ascii "/cgroup" := by
    unfold cgroupFile pushPath
    split
    · exact ⟨pid.text, rfl⟩
    · split
      · exact ⟨procfsPath ++ slash :: pid.text, by simp⟩
      · exact ⟨procfsPath ++ pid.text, by simp⟩
  obtain ⟨front, hfront⟩ := hfront
  intro h
  have hlast : (front ++ ascii "/cgroup").getLast? = cgroupsPath.getLast? := by
    rw [← hfront, h]
  rw [List.getLast?_append_of_ne_nil front (by decide)] at hlast
  revert hlast
  decide

theorem V2Ended.not_openLines {manager : CgroupV2Manager} {pid : Pid}
    {read : Except IoError (Option Bytes)} {o : Outcome Halt CgroupError Unit} {rest : Log}
    (h : V2Ended manager pid read o rest) {path : Path}
    {r : Except IoError (List (Except IoError Bytes))} : ⟨.openLines path, r⟩ ∉ rest := by
  intro hmem
  cases h with
  | unreadable => cases hmem
  | absent => cases hmem
  | refused => simp at hmem
  | opened written =>
      rcases List.mem_cons.mp hmem with hev | hmem
      · cases hev
      · obtain ⟨bytes, res, hev⟩ := written.only _ hmem
        cases hev

theorem V2Calls.not_fellBack {manager : HybridCgroupManager} {pid targetPid : Pid} {log : Log}
    (h : V2Calls manager.v2 pid targetPid (.value ()) log) :
    ¬FellBack manager.v1 pid targetPid log := by
  obtain ⟨r, rest, rfl, hended⟩ := h
  intro hback
  obtain ⟨r', hmem⟩ := hback.reads
  rcases List.mem_cons.mp hmem with hev | hmem
  · injection hev with hcall
    injection hcall with hpath
    exact cgroupFile_ne_cgroupsPath _ _ hpath.symm
  · exact hended.not_openLines hmem

/-- What the two managers need of the system: that `/proc/<pid>/cgroup` cannot be
read, or that it names a unified cgroup whose `cgroup.procs` can be opened and
written. -/
def Migratable (manager : CgroupV2Manager) (targetPid : Pid) (log : Log) : Prop :=
  ∃ r, log.head? = some ⟨.openLines (cgroupFile manager.procfsPath targetPid), r⟩ ∧
    ((∃ e, unifiedPath r = .error e) ∨
      (∃ path, unifiedPath r = .ok (some path)) ∧
        ∀ ev ∈ log, ¬OpenRefused ev ∧ ¬WriteFailed ev)

theorem enteredUnified_cons {manager : CgroupV2Manager} {pid targetPid : Pid}
    {r : Except IoError (List (Except IoError Bytes))} {rest : Log}
    (hnone : ∀ path r', ⟨.openLines path, r'⟩ ∉ rest) :
    EnteredUnified manager pid targetPid
        (⟨.openLines (cgroupFile manager.procfsPath targetPid), r⟩ :: rest) ↔
      ∃ path, unifiedPath r = .ok (some path) ∧
        ⟨.openFile (manager.procsPath path) .append, .ok ()⟩ ∈ rest ∧
        writtenTo (.atPath (manager.procsPath path) .append) rest = pid.text := by
  constructor
  · rintro ⟨r', path, hread, hpath, hopen, hwritten⟩
    rcases List.mem_cons.mp hread with hev | hmem
    · cases hev
      rcases List.mem_cons.mp hopen with hev | hopen
      · cases hev
      · exact ⟨path, hpath, hopen, hwritten⟩
    · exact absurd hmem (hnone _ _)
  · rintro ⟨path, hpath, hopen, hwritten⟩
    exact ⟨r, path, by simp, hpath, List.mem_cons_of_mem _ hopen, hwritten⟩

theorem migratable_cons {manager : CgroupV2Manager} {targetPid : Pid}
    {r : Except IoError (List (Except IoError Bytes))} {rest : Log} :
    Migratable manager targetPid
        (⟨.openLines (cgroupFile manager.procfsPath targetPid), r⟩ :: rest) ↔
      (∃ e, unifiedPath r = .error e) ∨ (∃ path, unifiedPath r = .ok (some path)) ∧
        ∀ ev ∈ rest, ¬OpenRefused ev ∧ ¬WriteFailed ev := by
  constructor
  · rintro ⟨r', hhead, h⟩
    cases hhead
    simpa [OpenRefused, WriteFailed] using h
  · intro h
    exact ⟨r, rfl, by simpa [OpenRefused, WriteFailed] using h⟩

theorem V2Calls.migratable_iff {manager : CgroupV2Manager} {pid targetPid : Pid} {log : Log}
    (h : V2Calls manager pid targetPid (.value ()) log) :
    EnteredUnified manager pid targetPid log ↔ Migratable manager targetPid log := by
  obtain ⟨r, rest, rfl, hended⟩ := h
  rw [enteredUnified_cons fun _ _ => hended.not_openLines, migratable_cons]
  generalize unifiedPath r = read at hended
  cases hended with
  | absent => simp
  | refused => simp [OpenRefused]
  | @opened path res writes written =>
      have hopened : ¬OpenRefused ⟨.openFile (manager.procsPath path) .append, .ok ()⟩ ∧
          ¬WriteFailed ⟨.openFile (manager.procsPath path) .append, .ok ()⟩ := ⟨id, id⟩
      cases res with
      | ok _ =>
          obtain ⟨honly, hcalm, hwhole⟩ := written.of_ok
          refine iff_of_true ⟨path, rfl, by simp, hwhole⟩ (.inr ⟨⟨path, rfl⟩, ?_⟩)
          intro ev hmem
          rcases List.mem_cons.mp hmem with rfl | hmem
          · exact hopened
          · obtain ⟨bytes, res, rfl⟩ := honly ev hmem
            exact ⟨id, hcalm _ hmem⟩
      | error e =>
          obtain ⟨-, ⟨ev, hmem, hfailed⟩, hpartly⟩ := written.of_error
          apply iff_of_false
          · rintro ⟨path', hpath, -, hwritten⟩
            obtain rfl : path = path' := by simpa using hpath
            have hwhole : writtenTo (.atPath (manager.procsPath path) .append) writes =
                pid.text := hwritten
            rw [hwhole] at hpartly
            exact Nat.lt_irrefl _ hpartly
          · rintro (⟨e, he⟩ | ⟨-, hcalm⟩)
            · cases he
            · exact (hcalm ev (List.mem_cons_of_mem _ hmem)).2 hfailed

/-- `Ok` means that the process was migrated, by way of one of the two managers,
just when the v2 manager had nothing to swallow. -/
theorem hybrid_migrates_iff (manager : HybridCgroupManager) (pid targetPid : Pid) (log : Log)
    (run : (manager.moveTo pid targetPid).Runs (tracing linux) [] (.value ()) log) :
    EnteredUnified manager.v2 pid targetPid log ∨ FellBack manager.v1 pid targetPid log ↔
      Migratable manager.v2 targetPid log := by
  rcases ended_of_run run with hcalls | ⟨r, e, hread, fallback⟩
  · rw [← hcalls.migratable_iff]
    simp [hcalls.not_fellBack]
  · constructor
    · intro _
      obtain ⟨calls, rfl, -⟩ := moved_of_run fallback
      exact ⟨r, rfl, .inl ⟨e, hread⟩⟩
    · intro _
      exact .inr ⟨_, fallback⟩

def sysFsCgroup : HybridCgroupManager := ⟨⟨ascii "/proc"⟩, ⟨ascii "/sys/fs/cgroup", ascii "/proc"⟩⟩

/-- A process that is in no unified cgroup is not migrated at all. -/
theorem hybrid_skips_userSlice :
    ∃ line log, line = memoryLine (ascii "/user.slice") (by decide) (by decide) ∧
      (∀ ev ∈ log, Serves (memoryHost line) ev) ∧ (∀ ev ∈ log, ¬OpenRefused ev) ∧
      (sysFsCgroup.moveTo ⟨7, by decide⟩ ⟨1, by decide⟩).Runs (tracing linux) [] (.value ())
        log ∧
      ¬(EnteredUnified sysFsCgroup.v2 ⟨7, by decide⟩ ⟨1, by decide⟩ log ∨
        FellBack sysFsCgroup.v1 ⟨7, by decide⟩ ⟨1, by decide⟩ log) := by
  obtain ⟨line, hline⟩ : ∃ line, line = memoryLine (ascii "/user.slice") (by decide)
    (by decide) := ⟨_, rfl⟩
  obtain ⟨⟨⟩, log, hrun, hanswers⟩ := Program.Runs.exists_of_replay
    (p := sysFsCgroup.moveTo ⟨7, by decide⟩ ⟨1, by decide⟩) (writableHost (memoryHost line)) 3
    (by rw [hline]; decide +kernel)
  obtain ⟨hfiles, hopen⟩ := serves_writableHost hanswers
  refine ⟨line, log, hline, hfiles, hopen, hrun, ?_⟩
  have hnone : unifiedPath (memoryHost line (cgroupFile sysFsCgroup.v2.procfsPath
      ⟨1, by decide⟩)) = .ok none := by
    rw [hline]
    decide +kernel
  rcases ended_of_run hrun with hcalls | ⟨r, e, hread, fallback⟩
  · rintro (⟨r', path, hmem, hpath, -, -⟩ | hback)
    · rw [(hfiles _ hmem).eq, hnone] at hpath
      cases hpath
    · exact hcalls.not_fellBack hback
  · obtain ⟨calls, rfl, -⟩ := moved_of_run fallback
    have hfirst : Serves (memoryHost line)
        ⟨.openLines (cgroupFile sysFsCgroup.v2.procfsPath ⟨1, by decide⟩), r⟩ :=
      hfiles _ (by simp)
    rw [hfirst.eq, hnone] at hread
    cases hread

def unifiedHost : Files := fun path =>
  if path = ascii "/proc/1/cgroup" then .ok [.ok (ascii "0::/user.slice")]
  else .error (.os .perm)

/-- What the manager does there to have process 7 follow process 1. -/
def unifiedLog : Log :=
  [⟨.openLines (ascii "/proc/1/cgroup"), .ok [.ok (ascii "0::/user.slice")]⟩,
    ⟨.openFile (ascii "/sys/fs/cgroup/user.slice/cgroup.procs") .append, .ok ()⟩,
    ⟨.write (.atPath (ascii "/sys/fs/cgroup/user.slice/cgroup.procs") .append) (ascii "7"),
      .ok ⟨1, by decide⟩⟩]

theorem hybrid_migrates_iff_unifiedHost :
    (sysFsCgroup.moveTo ⟨7, by decide⟩ ⟨1, by decide⟩).Runs (tracing linux) [] (.value ())
        unifiedLog ∧
      Migratable sysFsCgroup.v2 ⟨1, by decide⟩ unifiedLog ∧
      (EnteredUnified sysFsCgroup.v2 ⟨7, by decide⟩ ⟨1, by decide⟩ unifiedLog ∨
        FellBack sysFsCgroup.v1 ⟨7, by decide⟩ ⟨1, by decide⟩ unifiedLog) := by
  have hrun : (sysFsCgroup.moveTo ⟨7, by decide⟩ ⟨1, by decide⟩).Runs (tracing linux) []
      (.value ()) unifiedLog := .of_replay (fun _ => writableHost unifiedHost) 3 rfl
  have hpath : unifiedPath (.ok [.ok (ascii "0::/user.slice")]) =
      .ok (some (ascii "/user.slice")) := by
    decide +kernel
  have hmigratable : Migratable sysFsCgroup.v2 ⟨1, by decide⟩ unifiedLog := by
    refine ⟨_, rfl, .inr ⟨⟨_, hpath⟩, ?_⟩⟩
    simp [unifiedLog, OpenRefused, WriteFailed]
  exact ⟨hrun, hmigratable, (hybrid_migrates_iff sysFsCgroup ⟨7, by decide⟩ ⟨1, by decide⟩
    unifiedLog hrun).mpr hmigratable⟩

end Cntr.HybridFallback
