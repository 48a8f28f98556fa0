import Cntr.CgroupManagers
import Mathlib.Data.List.Induction

namespace Cntr.CgroupV1Migration

open Cntr.ByteText
open Cntr.CallTree
open Cntr.SystemCalls
open Cntr.TextSplitting
open Cntr.WholeWrites
open Cntr.CgroupManagers

abbrev Files := Path → Except IoError (List (Except IoError Bytes))

/-- A file is read as the system has it. -/
def Serves (files : Files) : Event linux → Prop
  | ⟨.openLines path, r⟩ => r = files path
  | _ => True

/-- The calls `move_to` makes for one cgroup of the target. -/
inductive Entry (pid : Pid) (mountpoints : Mountpoints) (cgroup : Bytes) : Log → Prop where
  | unmounted (none : cgroupV1Path cgroup mountpoints = none) : Entry pid mountpoints cgroup []
  | refused {path : Path} {e : IoError} (some : cgroupV1Path cgroup mountpoints = some path) :
      Entry pid mountpoints cgroup [⟨.openFile path .create, .error e⟩]
  | entered {path : Path} {writes : Log} (some : cgroupV1Path cgroup mountpoints = some path)
      (whole : WholeWrite (.atPath path .create) pid.text (.ok ()) writes) :
      Entry pid mountpoints cgroup (⟨.openFile path .create, .ok ()⟩ :: writes)

/-- The calls `move_to` makes for a list of cgroups. -/
inductive Entries (pid : Pid) (mountpoints : Mountpoints) : List Bytes → Log → Prop where
  | nil : Entries pid mountpoints [] []
  | snoc {cgroups : List Bytes} {cgroup : Bytes} {log part : Log}
      (init : Entries pid mountpoints cgroups log) (last : Entry pid mountpoints cgroup part) :
      Entries pid mountpoints (cgroups ++ [cgroup]) (log ++ part)

theorem Entries.part_of_mem {pid : Pid} {mountpoints : Mountpoints} {cgroups : List Bytes}
    {log : Log} (h : Entries pid mountpoints cgroups log) {cgroup : Bytes}
    (hmem : cgroup ∈ cgroups) : ∃ part, Entry pid mountpoints cgroup part ∧ part <:+: log := by
  induction h with
  | nil => simp at hmem
  | snoc init last ih =>
      rcases List.mem_append.mp hmem with hmem | hmem
      · obtain ⟨part, hentry, hpart⟩ := ih hmem
        exact ⟨part, hentry, hpart.trans (List.prefix_append _ _).isInfix⟩
      · rw [List.mem_singleton.mp hmem]
        exact ⟨_, last, (List.suffix_append _ _).isInfix⟩

theorem Entries.mem_part {pid : Pid} {mountpoints : Mountpoints} {cgroups : List Bytes}
    {log : Log} (h : Entries pid mountpoints cgroups log) {ev : Event linux} (hmem : ev ∈ log) :
    ∃ cgroup ∈ cgroups, ∃ part, Entry pid mountpoints cgroup part ∧ ev ∈ part := by
  induction h with
  | nil => simp at hmem
  | snoc init last ih =>
      rcases List.mem_append.mp hmem with hmem | hmem
      · obtain ⟨cgroup, hcgroup, hpart⟩ := ih hmem
        exact ⟨cgroup, List.mem_append_left _ hcgroup, hpart⟩
      · exact ⟨_, by simp, _, last, hmem⟩

def MountsRead (mountpoints : Mountpoints) (log : Log) : Prop :=
  ∃ subsystems mountinfo lines lines',
    log = [⟨.openLines cgroupsPath, .ok subsystems⟩, ⟨.openLines mountinfoPath, .ok mountinfo⟩] ∧
    subsystems.mapM decodeLine = .ok lines ∧ mountinfo.mapM decodeLine = .ok lines' ∧
    mountpoints = mountsOf lines lines'

/-- One of the files of `get_mounts` was not read as text. -/
def MountsUnread (log : Log) : Prop :=
  ∃ path r e, (path = cgroupsPath ∨ path = mountinfoPath) ∧ ⟨.openLines path, r⟩ ∈ log ∧
    readOutcome path r = .error e

theorem getMounts_wp {Q : Outcome Halt CgroupError Mountpoints → Log → Prop} {log : Log}
    (hfail : ∀ e reads, MountsUnread reads → Q (.error e) (log ++ reads))
    (hread : ∀ mountpoints reads, MountsRead mountpoints reads →
      Q (.value mountpoints) (log ++ reads)) :
    getMounts.wp (tracing linux) (fun _ _ => True) Q log := by
  rw [getMounts, getSubsystems, Program.bind_eq, Program.bind_eq, Program.bind_assoc]
  refine readLines_bind_wp trivial (fun r e h => ?_) fun subsystems lines hlines => ?_
  · exact hfail e _ ⟨cgroupsPath, r, e, .inl rfl, List.mem_singleton_self _, h⟩
  rw [Program.pure_eq, Program.done_bind]
  refine readLines_bind_wp trivial (fun r e h => ?_) fun mountinfo lines' hlines' => ?_
  · rw [List.append_assoc]
    exact hfail e _ ⟨mountinfoPath, r, e, .inr rfl, by simp, h⟩
  rw [List.append_assoc]
  exact hread _ _ ⟨subsystems, mountinfo, lines, lines', rfl, hlines, hlines', rfl⟩

theorem MountsRead.of_runs {mountpoints : Mountpoints} {log : Log}
    (run : getMounts.Runs (tracing linux) [] (.value mountpoints) log) :
    MountsRead mountpoints log := by
  refine run.of_wp (Q := fun o log => ∀ m, o = .value m → MountsRead m log)
    (getMounts_wp (fun _ _ _ _ h => (by cases h)) fun m reads hreads m' hm => ?_) _ rfl
  obtain rfl : m = m' := by simpa using hm
  exact hreads

theorem enter_wp {pid : Pid} {mountpoints : Mountpoints} {cgroup : Bytes}
    {Q : Outcome Halt CgroupError Unit → Log → Prop} {log : Log}
    (hfail : ∀ e part, (∃ ev ∈ part, WriteFailed ev) → Q (.error e) (log ++ part))
    (hentry : ∀ part, Entry pid mountpoints cgroup part → Q (.value ()) (log ++ part)) :
    (CgroupV1Manager.enter pid mountpoints cgroup).wp (tracing linux) (fun _ _ => True) Q
      log := by
  unfold CgroupV1Manager.enter
  split
  · next hnone =>
      have hdone := hentry [] (.unmounted hnone)
      rwa [List.append_nil] at hdone
  · next path hsome =>
      simp only [Program.bind_eq, Program.wp_call_tracing]
      refine ⟨trivial, ?_⟩
      rintro (e | _)
      · exact hentry _ (.refused hsome)
      · simp only [CgroupV1Manager.writePid, Program.bind_eq, Program.wp_bind]
        refine writeAll_wp (fun _ _ _ _ => trivial) fun r writes hwrites => ?_
        rw [Outcome.andThen_value]
        rcases r with e | _
        · obtain ⟨-, ⟨ev, hmem, hfailed⟩, -⟩ := hwrites.of_error
          have hbroken := hfail (.writePid path e) (⟨.openFile path .create, .ok ()⟩ :: writes)
            ⟨ev, List.mem_cons_of_mem _ hmem, hfailed⟩
          rwa [List.append_cons] at hbroken
        · have hentered := hentry _ (.entered hsome hwrites)
          rwa [List.append_cons] at hentered

/-- The calls `move_to` makes once it has the cgroups of the target. -/
inductive Migrated (pid : Pid) (cgroups : List Bytes) :
    Outcome Halt CgroupError Unit → Log → Prop where
  | moved {mountpoints : Mountpoints} {reads entries : Log} (read : MountsRead mountpoints reads)
      (entered : Entries pid mountpoints cgroups entries) :
      Migrated pid cgroups (.value ()) (reads ++ entries)
  | unmounted {e : CgroupError} {reads : Log} (unread : MountsUnread reads) :
      Migrated pid cgroups (.error e) reads
  | unwritten {e : CgroupError} {calls : Log} (failed : ∃ ev ∈ calls, WriteFailed ev) :
      Migrated pid cgroups (.error e) calls

/-- The calls of `move_to`, the first of which reads the `cgroup` file of the target. -/
inductive Moved (manager : CgroupV1Manager) (pid targetPid : Pid) :
    Outcome Halt CgroupError Unit → Log → Prop where
  | unread {r : Except IoError (List (Except IoError Bytes))} {e : CgroupError}
      (unread : readOutcome (cgroupFile manager.procfsPath targetPid) r = .error e) :
      Moved manager pid targetPid (.error e)
        [⟨.openLines (cgroupFile manager.procfsPath targetPid), r⟩]
  | read {items : List (Except IoError Bytes)} {lines : List Bytes}
      {o : Outcome Halt CgroupError Unit} {calls : Log}
      (decoded : items.mapM decodeLine = .ok lines)
      (migrated : Migrated pid (lines.filterMap cgroupOf) o calls) :
      Moved manager pid targetPid o
        (⟨.openLines (cgroupFile manager.procfsPath targetPid), .ok items⟩ :: calls)

theorem moveTo_wp {manager : CgroupV1Manager} {pid targetPid : Pid} {log : Log} :
    (manager.moveTo pid targetPid).wp (tracing linux) (fun _ _ => True)
      (fun o log' => ∃ calls, log' = log ++ calls ∧ Moved manager pid targetPid o calls) log := by
  simp only [CgroupV1Manager.moveTo, CgroupV1Manager.getCgroups, Program.bind_eq,
    Program.bind_assoc]
  refine readLines_bind_wp trivial (fun r e h => ⟨_, rfl, .unread h⟩) fun items lines hlines => ?_
  rw [Program.pure_eq, Program.done_bind, Program.wp_bind]
  refine getMounts_wp (fun e reads hreads => ?_) fun mountpoints reads hreads => ?_
  · exact ⟨_, List.append_assoc .., .read hlines (.unmounted hreads)⟩
  rw [Outcome.andThen_value]
  refine Program.wp_forEach (I := fun rest log' => ∃ cgroups entries,
      lines.filterMap cgroupOf = cgroups ++ rest ∧
      log' = log ++ ⟨.openLines (cgroupFile manager.procfsPath targetPid), .ok items⟩ ::
        (reads ++ entries) ∧ Entries pid mountpoints cgroups entries) ?_ ?_ ?_
  · rintro cgroup rest _ ⟨cgroups, entries, hsplit, rfl, hentries⟩
    refine enter_wp (fun e part hfailed => ?_) fun part hpart => ?_
    · obtain ⟨ev, hmem, hfailed⟩ := hfailed
      refine ⟨_, List.append_assoc .., .read hlines (.unwritten ⟨ev, ?_, hfailed⟩)⟩
      exact List.mem_append_right _ hmem
    · refine ⟨cgroups ++ [cgroup], entries ++ part, ?_, by simp, hentries.snoc hpart⟩
      rw [hsplit, List.append_assoc, List.singleton_append]
  · rintro _ ⟨cgroups, entries, hsplit, rfl, hentries⟩
    rw [List.append_nil] at hsplit
    exact ⟨_, rfl, .read hlines (.moved hreads (hsplit ▸ hentries))⟩
  · exact ⟨[], [], rfl, by simp, .nil⟩

theorem moved_of_run {manager : CgroupV1Manager} {pid targetPid : Pid} {log log' : Log}
    {o : Outcome Halt CgroupError Unit}
    (run : (manager.moveTo pid targetPid).Runs (tracing linux) log o log') :
    ∃ calls, log' = log ++ calls ∧ Moved manager pid targetPid o calls :=
  run.of_wp moveTo_wp

/-- A migration that succeeds has read its two files and entered every cgroup. -/
theorem Moved.of_value {manager : CgroupV1Manager} {pid targetPid : Pid} {calls : Log}
    (h : Moved manager pid targetPid (.value ()) calls) :
    ∃ items lines mountpoints reads entries,
      calls = ⟨.openLines (cgroupFile manager.procfsPath targetPid), .ok items⟩ ::
        (reads ++ entries) ∧
      items.mapM decodeLine = .ok lines ∧ MountsRead mountpoints reads ∧
      Entries pid mountpoints (lines.filterMap cgroupOf) entries := by
  cases h with
  | @read items lines _ calls decoded migrated =>
      cases migrated with
      | @moved mountpoints reads entries read entered =>
          exact ⟨items, lines, mountpoints, reads, entries, rfl, decoded, read, entered⟩

theorem Serves.eq {files : Files} {path : Path}
    {r : Except IoError (List (Except IoError Bytes))} (h : Serves files ⟨.openLines path, r⟩) :
    r = files path := h

theorem MountsRead.unique {files : Files} {mountpoints mountpoints' : Mountpoints}
    {log log' : Log} (h : MountsRead mountpoints log) (h' : MountsRead mountpoints' log')
    (hserves : ∀ ev ∈ log, Serves files ev) (hserves' : ∀ ev ∈ log', Serves files ev) :
    mountpoints = mountpoints' := by
  obtain ⟨subsystems, mountinfo, lines, infoLines, rfl, hlines, hinfo, rfl⟩ := h
  obtain ⟨subsystems', mountinfo', lines', infoLines', rfl, hlines', hinfo', rfl⟩ := h'
  simp only [List.forall_mem_cons] at hserves hserves'
  obtain ⟨hsubsystems, hmountinfo, -⟩ := hserves
  obtain ⟨hsubsystems', hmountinfo', -⟩ := hserves'
  have hfirst := hsubsystems.eq.trans hsubsystems'.eq.symm
  have hsecond := hmountinfo.eq.trans hmountinfo'.eq.symm
  cases hfirst
  cases hsecond
  cases hlines.symm.trans hlines'
  cases hinfo.symm.trans hinfo'
  rfl

theorem MountsRead.not_unread {files : Files} {mountpoints : Mountpoints} {log log' : Log}
    (h : MountsRead mountpoints log) (hserves : ∀ ev ∈ log, Serves files ev)
    (hserves' : ∀ ev ∈ log', Serves files ev) : ¬MountsUnread log' := by
  obtain ⟨subsystems, mountinfo, lines, infoLines, rfl, hlines, hinfo, -⟩ := h
  simp only [List.forall_mem_cons] at hserves
  obtain ⟨hsubsystems, hmountinfo, -⟩ := hserves
  rintro ⟨path, r, e, hpath, hmem, hunread⟩
  rw [(hserves' _ hmem).eq] at hunread
  rcases hpath with rfl | rfl
  · rw [← hsubsystems.eq, readOutcome, hlines] at hunread
    cases hunread
  · rw [← hmountinfo.eq, readOutcome, hinfo] at hunread
    cases hunread

theorem MountsRead.eq_mountsOf {files : Files} {mountpoints : Mountpoints} {log : Log}
    (h : MountsRead mountpoints log) (hserves : ∀ ev ∈ log, Serves files ev)
    (cgroups mountinfo : List Bytes) (hcgroups : files cgroupsPath = .ok (cgroups.map .ok))
    (hmountinfo : files mountinfoPath = .ok (mountinfo.map .ok)) :
    mountpoints = mountsOf cgroups mountinfo := by
  obtain ⟨items, infoItems, lines, infoLines, rfl, hlines, hinfo, rfl⟩ := h
  simp only [List.forall_mem_cons] at hserves
  obtain ⟨hfirst, hsecond, -⟩ := hserves
  cases hcgroups.symm.trans hfirst.eq.symm
  cases hmountinfo.symm.trans hsecond.eq.symm
  rw [eq_of_mapM_decodeLine hlines, eq_of_mapM_decodeLine hinfo]

/-- The names on a path. Empty parts and `.` stay where they are. -/
def partsOf (p : Path) : List Bytes :=
  (p.splitOn slash).filter fun part => part ≠ [] ∧ part ≠ ascii "."

/-- The names on the mount point that a part of a path is put below; an absolute one is put
below the root. -/
def baseOf (mountPoint part : Bytes) : List Bytes :=
  if part.head? = some slash then [] else partsOf mountPoint

/-- The first of the names that the map has is mounted at this place. -/
def FirstMounted (mountpoints : Mountpoints) (names : List Bytes) (mountPoint : Bytes) : Prop :=
  ∃ before c after, names = before ++ c :: after ∧ mountpoints c = some mountPoint ∧
    ∀ name ∈ before, mountpoints name = none

theorem FirstMounted.unique {mountpoints : Mountpoints} {names : List Bytes}
    {place mountPoint : Bytes} (h : FirstMounted mountpoints names place)
    (h' : FirstMounted mountpoints names mountPoint) : place = mountPoint := by
  have hfound := (List.findSome?_eq_some_iff.mpr h).symm.trans (List.findSome?_eq_some_iff.mpr h')
  exact Option.some.inj hfound

/-- What the one place has more than the other, the path has more than the part, or the other
way round. -/
structure SameCgroup (place part mountPoint path : Bytes) : Prop where
  root : part.head? = some slash ∨ place.head? = some slash ↔
    mountPoint = [] ∨ mountPoint.head? = some slash
  names : ∃ more,
    (baseOf place part = partsOf mountPoint ++ more ∧ partsOf path = more ++ partsOf part) ∨
    (partsOf mountPoint = baseOf place part ++ more ∧ partsOf part = more ++ partsOf path)

theorem partsOf_append_slash (xs ys : Bytes) :
    partsOf (xs ++ slash :: ys) = partsOf xs ++ partsOf ys := by
  rw [partsOf, List.splitOn_append_cons_self, List.filter_append]
  rfl

theorem partsOf_append_absolute (xs : Bytes) {p : Path} (h : p.head? = some slash) :
    partsOf (xs ++ p) = partsOf xs ++ partsOf p := by
  obtain ⟨rest, rfl⟩ := List.head?_eq_some_iff.mp h
  have hslash := partsOf_append_slash [] rest
  rw [List.nil_append] at hslash
  rw [partsOf_append_slash, hslash]
  rfl

theorem head?_pushPath (base p : Path) :
    (pushPath base p).head? = some slash ↔ p.head? = some slash ∨ base.head? = some slash := by
  unfold pushPath
  by_cases hp : p.head? = some slash
  · simp [hp]
  · cases base with
    | nil => simp [hp]
    | cons b base =>
        rw [if_neg hp]
        split
        · simp [hp]
        · simp [hp]

theorem partsOf_pushPath (base p : Path) :
    partsOf (pushPath base p) = baseOf base p ++ partsOf p := by
  unfold pushPath baseOf
  by_cases hp : p.head? = some slash
  · rw [if_pos hp, if_pos hp, List.nil_append]
  · rw [if_neg hp, if_neg hp]
    split
    · exact partsOf_append_slash base p
    · next hlast =>
        cases base using List.reverseRecOn with
        | nil => rfl
        | append_singleton base b =>
            obtain rfl : b = slash := by simpa using hlast
            have hbase : partsOf (base ++ [slash]) = partsOf base := by
              rw [partsOf_append_slash]
              exact List.append_nil _
            rw [hbase, List.append_assoc, List.singleton_append]
            exact partsOf_append_slash base p

/-- Two directories are one just when they are the same cgroup. -/
theorem samePath_tasks_iff {place part mountPoint path : Bytes}
    (hpath : path.head? = some slash) :
    SamePath (pushPath (pushPath place part) (ascii "tasks"))
        (mountPoint ++ path ++ ascii "/tasks") ↔
      SameCgroup place part mountPoint path := by
  have htasks : ascii "/tasks" = slash :: ascii "tasks" := rfl
  have hbase : baseOf (pushPath place part) (ascii "tasks") = partsOf (pushPath place part) :=
    rfl
  have hroot : (mountPoint ++ path ++ ascii "/tasks").head? = some slash ↔
      mountPoint = [] ∨ mountPoint.head? = some slash := by
    cases mountPoint with
    | nil => simp [hpath]
    | cons b mountPoint => simp
  have hcomponents : ∀ p, components p = (decide (p.head? = some slash), partsOf p) :=
    fun _ => rfl
  have hrelative : ¬(ascii "tasks").head? = some slash := by decide
  rw [SamePath, hcomponents, hcomponents, Prod.mk.injEq, decide_eq_decide, head?_pushPath,
    head?_pushPath, or_iff_right hrelative, hroot, partsOf_pushPath, hbase, partsOf_pushPath,
    htasks, partsOf_append_slash, partsOf_append_absolute _ hpath, List.append_left_inj,
    List.append_eq_append_iff, ← exists_or]
  constructor
  · rintro ⟨hrooted, more, h⟩
    exact ⟨hrooted, more, h.symm⟩
  · rintro ⟨hrooted, more, h⟩
    exact ⟨hrooted, more, h.symm⟩

theorem cgroupV1Path_eq_some_iff {cgroup : Bytes} {mountpoints : Mountpoints} {path : Path} :
    cgroupV1Path cgroup mountpoints = some path ↔
      ∃ place, FirstMounted mountpoints (cgroup.splitOn comma) place ∧
        pushPath (pushPath place cgroup) (ascii "tasks") = path := by
  have hmap : cgroupV1Path cgroup mountpoints = ((cgroup.splitOn comma).findSome? mountpoints).map
      fun place => pushPath (pushPath place cgroup) (ascii "tasks") := List.map_findSome?.symm
  simp only [hmap, Option.map_eq_some_iff, List.findSome?_eq_some_iff, FirstMounted]

/-- A line of `/proc/<pid>/cgroup` of a process in cgroup v1 hierarchies. -/
structure HierarchyLine where
  id : Nat
  controllers : List Bytes
  path : Bytes
  controllers_ne_nil : controllers ≠ []
  controllers_plain : ∀ c ∈ controllers, comma ∉ c ∧ colon ∉ c ∧ slash ∉ c ∧ newline ∉ c
  path_absolute : path.head? = some slash
  path_plain : newline ∉ path

namespace HierarchyLine

/-- The line up to the colon before the path. -/
def hierarchy (line : HierarchyLine) : Bytes :=
  decimal line.id ++ colon :: [comma].intercalate line.controllers

def text (line : HierarchyLine) : Bytes := line.hierarchy ++ colon :: line.path

/-- The `tasks` file of the cgroup, in the hierarchy of the first controller that
is mounted. -/
def tasksFile (mountpoints : Mountpoints) (line : HierarchyLine) : Option Path :=
  (line.controllers.findSome? mountpoints).map fun mountPoint =>
    mountPoint ++ line.path ++ ascii "/tasks"

/-- The path without its slash, up to the next `:/`. -/
def pathPart (line : HierarchyLine) : Bytes :=
  (splitOnPattern (ascii ":/") 0 (stripCarriageReturn (line.path.drop 1))).headD []

/-- The line is text, so that it can be read as a line. -/
def Readable (line : HierarchyLine) : Prop := isUtf8 (stripCarriageReturn line.text) = true

end HierarchyLine

def contentOf (lines : List HierarchyLine) : Bytes :=
  (lines.map HierarchyLine.text).flatMap (· ++ [newline])

namespace HierarchyLine

theorem not_mem_hierarchy {b : UInt8} (line : HierarchyLine) (hdigit : b.toNat < 48)
    (hcolon : b ≠ colon) (hcomma : b ≠ comma) (hplain : ∀ c ∈ line.controllers, b ∉ c) :
    b ∉ line.hierarchy := by
  have hid : b ∉ decimal line.id := by
    intro h
    have hdigits := digit_of_mem_decimal h
    omega
  have hcontrollers : b ∉ [comma].intercalate line.controllers :=
    not_mem_intercalate (by simp [hcomma]) hplain
  simp [hierarchy, hid, hcolon, hcontrollers]

theorem text_plain (line : HierarchyLine) : newline ∉ line.text := by
  have hfront : newline ∉ line.hierarchy :=
    line.not_mem_hierarchy (by decide) (by decide) (by decide) fun c hc =>
      (line.controllers_plain c hc).2.2.2
  have hcolon : newline ≠ colon := by decide
  simp [text, hfront, hcolon, line.path_plain]

/-- What `get_cgroups` keeps of a line is the beginning of the path. -/
theorem cgroupOf_text (line : HierarchyLine) :
    cgroupOf (stripCarriageReturn line.text) = some line.pathPart := by
  obtain ⟨rest, hpath⟩ : ∃ rest, line.path = slash :: rest :=
    List.head?_eq_some_iff.mp line.path_absolute
  have htext : stripCarriageReturn line.text =
      line.hierarchy ++ ascii ":/" ++ stripCarriageReturn rest := by
    rw [text, hpath, stripCarriageReturn_append _ (List.cons_ne_nil _ _),
      stripCarriageReturn_cons (by decide), stripCarriageReturn_cons (by decide),
      List.append_assoc]
    rfl
  have hslash : slash ∉ line.hierarchy :=
    line.not_mem_hierarchy (by decide) (by decide) (by decide) fun c hc =>
      (line.controllers_plain c hc).2.2.1
  have hsplit := splitOnPattern_pair (show colon ≠ slash by decide) hslash
    (stripCarriageReturn rest)
  obtain ⟨part, parts, hparts⟩ := List.exists_cons_of_ne_nil
    (splitOnPattern_ne_nil (ascii ":/") 0 (stripCarriageReturn rest))
  have hpart : line.pathPart = part := by
    rw [pathPart, hpath, List.drop_succ_cons, List.drop_zero, hparts]
    rfl
  have hpattern : ascii ":/" = [colon, slash] := rfl
  rw [hpattern] at htext hparts
  rw [cgroupOf, htext, hpattern, hsplit, hparts, hpart]
  rfl

end HierarchyLine

theorem linesOf_contentOf (lines : List HierarchyLine) :
    linesOf (contentOf lines) = lines.map fun line => stripCarriageReturn line.text := by
  rw [contentOf, linesOf_flatMap, List.map_map]
  · rfl
  · intro text htext
    obtain ⟨line, -, rfl⟩ := List.mem_map.mp htext
    exact line.text_plain

theorem filterMap_cgroupOf (lines : List HierarchyLine) :
    (linesOf (contentOf lines)).filterMap cgroupOf = lines.map HierarchyLine.pathPart := by
  rw [linesOf_contentOf, List.filterMap_map]
  induction lines with
  | nil => rfl
  | cons line lines ih =>
      rw [List.filterMap_cons, List.map_cons, ← ih]
      simp [HierarchyLine.cgroupOf_text]

/-- The PID was written, as a whole, to a file that was opened for it. -/
def Entered (pid : Pid) (path : Path) (log : Log) : Prop :=
  ∃ writes, (⟨.openFile path .create, .ok ()⟩ :: writes) <:+: log ∧
    (∀ ev ∈ writes, IsWriteTo (.atPath path .create) ev) ∧
    writtenTo (.atPath path .create) writes = pid.text

def Touches (path : Path) : Event linux → Prop
  | ⟨.openFile path' _, _⟩ => path' = path
  | ⟨.write (.atPath path' _) _, _⟩ => path' = path
  | _ => False

def OpenRefused : Event linux → Prop
  | ⟨.openFile _ _, .error _⟩ => True
  | _ => False

/-- The PID is written to the files of the list and to no other file. -/
structure WritesExactly (pid : Pid) (files : List Path) (log : Log) : Prop where
  entered : ∀ file ∈ files, ∃ path, SamePath path file ∧ Entered pid path log
  only : ∀ path, ∀ ev ∈ log, Touches path ev → ∃ file ∈ files, SamePath path file

/-- The paths of the lines, taken for lists of controllers, lead to the cgroups of the lines and
to no others. When a line is no text no path is taken for anything. -/
structure PathsNameHierarchies (mountpoints : Mountpoints) (lines : List HierarchyLine) :
    Prop where
  found : ∀ line ∈ lines, ∀ mountPoint, FirstMounted mountpoints line.controllers mountPoint →
    (∀ other ∈ lines, other.Readable) ∧ ∃ other ∈ lines, ∃ place,
      FirstMounted mountpoints (other.pathPart.splitOn comma) place ∧
        SameCgroup place other.pathPart mountPoint line.path
  others : (∀ line ∈ lines, line.Readable) → ∀ other ∈ lines, ∀ place,
    FirstMounted mountpoints (other.pathPart.splitOn comma) place → ∃ line ∈ lines, ∃ mountPoint,
      FirstMounted mountpoints line.controllers mountPoint ∧
        SameCgroup place other.pathPart mountPoint line.path

theorem Entry.entered_of {pid : Pid} {mountpoints : Mountpoints} {cgroup : Bytes} {log : Log}
    (h : Entry pid mountpoints cgroup log) (hopen : ∀ ev ∈ log, ¬OpenRefused ev) {path : Path}
    (hpath : cgroupV1Path cgroup mountpoints = some path) : Entered pid path log := by
  cases h with
  | unmounted none => simp [none] at hpath
  | refused some => exact absurd trivial (hopen _ (List.mem_singleton_self _))
  | @entered path' writes some whole =>
      obtain rfl : path' = path := by simpa [some] using hpath
      obtain ⟨honly, -, hwhole⟩ := whole.of_ok
      exact ⟨writes, List.infix_refl _, honly, hwhole⟩

theorem Entry.path_of_touches {pid : Pid} {mountpoints : Mountpoints} {cgroup : Bytes}
    {log : Log} (h : Entry pid mountpoints cgroup log) {path : Path} {ev : Event linux}
    (hmem : ev ∈ log) (htouches : Touches path ev) :
    cgroupV1Path cgroup mountpoints = some path := by
  cases h with
  | unmounted none => simp at hmem
  | refused some =>
      obtain rfl := List.mem_singleton.mp hmem
      obtain rfl := htouches
      exact some
  | @entered path' writes some whole =>
      obtain ⟨honly, -, -⟩ := whole.of_ok
      rcases List.mem_cons.mp hmem with rfl | hmem
      · obtain rfl := htouches
        exact some
      · obtain ⟨bytes, r, rfl⟩ := honly ev hmem
        obtain rfl := htouches
        exact some

theorem Entry.calm {pid : Pid} {mountpoints : Mountpoints} {cgroup : Bytes} {log : Log}
    (h : Entry pid mountpoints cgroup log) : ∀ ev ∈ log, ¬WriteFailed ev := by
  cases h with
  | unmounted none => simp
  | refused some => exact List.forall_mem_singleton.mpr id
  | entered some whole =>
      obtain ⟨-, hcalm, -⟩ := whole.of_ok
      exact List.forall_mem_cons.mpr ⟨id, hcalm⟩

/-- No write of a migration that succeeds failed for good. -/
theorem Moved.calm {manager : CgroupV1Manager} {pid targetPid : Pid} {calls : Log}
    (h : Moved manager pid targetPid (.value ()) calls) : ∀ ev ∈ calls, ¬WriteFailed ev := by
  obtain ⟨items, lines, mountpoints, reads, entries, rfl, -, hreads, hentries⟩ := h.of_value
  obtain ⟨subsystems, mountinfo, infoLines, infoLines', rfl, -, -, -⟩ := hreads
  intro ev hmem
  simp only [List.mem_cons, List.mem_append, List.not_mem_nil, or_false] at hmem
  rcases hmem with rfl | (rfl | rfl) | hmem
  · exact id
  · exact id
  · exact id
  · obtain ⟨cgroup, -, part, hpart, hmem⟩ := hentries.mem_part hmem
    exact hpart.calm ev hmem

theorem Entered.of_part {pid : Pid} {path : Path} {log log' : Log} (h : Entered pid path log)
    (hlog : log <:+: log') : Entered pid path log' := by
  obtain ⟨writes, hwrites, honly, hwhole⟩ := h
  exact ⟨writes, hwrites.trans hlog, honly, hwhole⟩

theorem not_touches_of_mem_reads {mountpoints : Mountpoints} {reads : Log}
    (h : MountsRead mountpoints reads) {path : Path} {ev : Event linux} (hmem : ev ∈ reads) :
    ¬Touches path ev := by
  obtain ⟨subsystems, mountinfo, lines, infoLines, rfl, -, -, -⟩ := h
  simp only [List.mem_cons, List.not_mem_nil, or_false] at hmem
  rcases hmem with rfl | rfl
  · exact id
  · exact id

theorem mem_tasksFiles {mountpoints : Mountpoints} {lines : List HierarchyLine} {file : Path} :
    file ∈ lines.filterMap (HierarchyLine.tasksFile mountpoints) ↔
      ∃ line ∈ lines, ∃ mountPoint, FirstMounted mountpoints line.controllers mountPoint ∧
        mountPoint ++ line.path ++ ascii "/tasks" = file := by
  simp only [List.mem_filterMap, HierarchyLine.tasksFile, Option.map_eq_some_iff,
    List.findSome?_eq_some_iff, FirstMounted]

/-- The file that a run opens for the path of a line, taken for a list of controllers. -/
def Opened (mountpoints : Mountpoints) (lines : List HierarchyLine) (path : Path) : Prop :=
  ∃ other ∈ lines, ∃ place, FirstMounted mountpoints (other.pathPart.splitOn comma) place ∧
    pushPath (pushPath place other.pathPart) (ascii "tasks") = path

theorem Opened.iff_cgroupV1Path {mountpoints : Mountpoints} {lines : List HierarchyLine}
    {path : Path} : Opened mountpoints lines path ↔
      ∃ cgroup ∈ lines.map HierarchyLine.pathPart, cgroupV1Path cgroup mountpoints = some path := by
  simp only [List.mem_map, exists_exists_and_eq_and, cgroupV1Path_eq_some_iff, Opened]

theorem readOutcome_contentOf (path : Path) (lines : List HierarchyLine) :
    ((∀ line ∈ lines, line.Readable) →
      readOutcome path (.ok ((linesOf (contentOf lines)).map .ok)) =
        .value (linesOf (contentOf lines))) ∧
    (¬(∀ line ∈ lines, line.Readable) →
      readOutcome path (.ok ((linesOf (contentOf lines)).map .ok)) =
        .error (.readFailed path .invalidData)) := by
  have hall : (linesOf (contentOf lines)).all isUtf8 = true ↔ ∀ line ∈ lines, line.Readable := by
    simp [linesOf_contentOf, HierarchyLine.Readable]
  rw [readOutcome_ok]
  constructor
  · intro h
    rw [if_pos (hall.mpr h)]
  · intro h
    rw [if_neg (mt hall.mp h)]

/-- A run in which no line is without text enters every cgroup that the paths are taken
for. -/
theorem Moved.calls {manager : CgroupV1Manager} {pid targetPid : Pid} {log : Log}
    {o : Outcome Halt CgroupError Unit} (h : Moved manager pid targetPid o log) {files : Files}
    (hserves : ∀ ev ∈ log, Serves files ev) (hopen : ∀ ev ∈ log, ¬OpenRefused ev)
    (hcalm : ∀ ev ∈ log, ¬WriteFailed ev)
    (lines : List HierarchyLine) (hfile : files (cgroupFile manager.procfsPath targetPid) =
      .ok ((linesOf (contentOf lines)).map .ok))
    (hreadable : ∀ line ∈ lines, line.Readable)
    {mountpoints : Mountpoints} {mountsLog : Log} (hmounts : MountsRead mountpoints mountsLog)
    (hserves' : ∀ ev ∈ mountsLog, Serves files ev) :
    o = .value () ∧ (∀ path, Opened mountpoints lines path → Entered pid path log) ∧
    ∀ path, ∀ ev ∈ log, Touches path ev → Opened mountpoints lines path := by
  have hread := (readOutcome_contentOf (cgroupFile manager.procfsPath targetPid) lines).1 hreadable
  cases h with
  | @unread r e unread =>
      have hr : r = files (cgroupFile manager.procfsPath targetPid) :=
        hserves _ (List.mem_singleton_self _)
      rw [hr, hfile, hread] at unread
      cases unread
  | @read items read _ calls decoded migrated =>
      obtain ⟨hitems, hservesCalls⟩ := List.forall_mem_cons.mp hserves
      obtain rfl : items = (linesOf (contentOf lines)).map .ok := by
        simpa [hfile] using hitems.eq
      obtain rfl := eq_of_mapM_decodeLine decoded
      cases migrated with
      | unmounted unread => exact absurd unread (hmounts.not_unread hserves' hservesCalls)
      | unwritten failed =>
          obtain ⟨ev, hmem, hfailed⟩ := failed
          exact absurd hfailed (hcalm ev (List.mem_cons_of_mem _ hmem))
      | @moved mountpoints' reads entries read entered =>
          obtain ⟨hservesReads, -⟩ := List.forall_mem_append.mp hservesCalls
          obtain rfl := read.unique hmounts hservesReads hserves'
          rw [filterMap_cgroupOf] at entered
          refine ⟨rfl, fun path hpath => ?_, fun path ev hev htouches => ?_⟩
          · obtain ⟨cgroup, hcgroup, hsome⟩ := Opened.iff_cgroupV1Path.mp hpath
            obtain ⟨part, hpart, hwithin⟩ := entered.part_of_mem hcgroup
            have hpiece : part <:+: ⟨.openLines (cgroupFile manager.procfsPath targetPid),
                .ok ((linesOf (contentOf lines)).map .ok)⟩ :: (reads ++ entries) :=
              hwithin.trans (((List.suffix_append _ _).trans (List.suffix_cons _ _)).isInfix)
            exact (hpart.entered_of (fun ev hev => hopen ev (hpiece.subset hev)) hsome).of_part
              hpiece
          · simp only [List.mem_cons, List.mem_append] at hev
            rcases hev with rfl | hev | hev
            · exact htouches.elim
            · exact absurd htouches (not_touches_of_mem_reads read hev)
            · obtain ⟨cgroup, hcgroup, part, hpart, hmem⟩ := entered.mem_part hev
              exact Opened.iff_cgroupV1Path.mpr
                ⟨cgroup, hcgroup, hpart.path_of_touches hmem htouches⟩

/-- When a line is no text the run fails at once. -/
theorem Moved.unreadable {manager : CgroupV1Manager} {pid targetPid : Pid} {log : Log}
    {o : Outcome Halt CgroupError Unit} (h : Moved manager pid targetPid o log) {files : Files}
    (hserves : ∀ ev ∈ log, Serves files ev)
    (lines : List HierarchyLine) (hfile : files (cgroupFile manager.procfsPath targetPid) =
      .ok ((linesOf (contentOf lines)).map .ok))
    (hunreadable : ¬∀ line ∈ lines, line.Readable) :
    o ≠ .value () ∧ ∀ path, ∀ ev ∈ log, ¬Touches path ev := by
  have hread :=
    (readOutcome_contentOf (cgroupFile manager.procfsPath targetPid) lines).2 hunreadable
  cases h with
  | unread unread =>
      refine ⟨fun h => (by cases h), fun path ev hev htouches => ?_⟩
      rw [List.mem_singleton] at hev
      subst hev
      exact htouches.elim
  | @read items read _ calls decoded migrated =>
      obtain ⟨hitems, -⟩ := List.forall_mem_cons.mp hserves
      rw [← hfile, ← hitems.eq, readOutcome, decoded] at hread
      cases hread

theorem Entered.touched {pid : Pid} {path : Path} {log : Log} (h : Entered pid path log) :
    ∃ ev ∈ log, Touches path ev := by
  obtain ⟨writes, hwrites, -, -⟩ := h
  exact ⟨⟨.openFile path .create, .ok ()⟩, hwrites.subset (by simp), rfl⟩

/-- The PID is written to the `tasks` files of the target's cgroups, and to no
other file, just when the paths of the lines, taken for lists of controllers, name the
hierarchies that the cgroups are in. The migration succeeds just when the lines are text. -/
theorem moveTo_writesExactly_iff (manager : CgroupV1Manager) (pid targetPid : Pid)
    (files : Files) (lines : List HierarchyLine) (mountpoints : Mountpoints)
    (mountsLog log : Log) (o : Outcome Halt CgroupError Unit)
    (hfile : files (cgroupFile manager.procfsPath targetPid) =
      .ok ((linesOf (contentOf lines)).map .ok))
    (hmounts : getMounts.Runs (tracing linux) [] (.value mountpoints) mountsLog)
    (hmountsFiles : ∀ ev ∈ mountsLog, Serves files ev)
    (hrun : (manager.moveTo pid targetPid).Runs (tracing linux) [] o log)
    (hrunFiles : ∀ ev ∈ log, Serves files ev) (hopen : ∀ ev ∈ log, ¬OpenRefused ev)
    (hcalm : ∀ ev ∈ log, ¬WriteFailed ev) :
    (WritesExactly pid (lines.filterMap (HierarchyLine.tasksFile mountpoints)) log ↔
      PathsNameHierarchies mountpoints lines) ∧
    (o = .value () ↔ ∀ line ∈ lines, line.Readable) := by
  have hread : MountsRead mountpoints mountsLog := .of_runs hmounts
  obtain ⟨calls, rfl, hmoved⟩ := moved_of_run hrun
  by_cases hreadable : ∀ line ∈ lines, line.Readable
  · obtain ⟨ho, hentered, htouched⟩ :=
      hmoved.calls hrunFiles hopen hcalm lines hfile hreadable hread hmountsFiles
    refine ⟨⟨fun h => ⟨?_, ?_⟩, fun h => ⟨?_, ?_⟩⟩, iff_of_true ho hreadable⟩
    · intro line hline mountPoint hmount
      obtain ⟨path, hsame, hpath⟩ :=
        h.entered _ (mem_tasksFiles.mpr ⟨line, hline, mountPoint, hmount, rfl⟩)
      obtain ⟨ev, hev, htouches⟩ := hpath.touched
      obtain ⟨other, hother, place, hplace, rfl⟩ := htouched path ev hev htouches
      exact ⟨hreadable, other, hother, place, hplace,
        (samePath_tasks_iff line.path_absolute).mp hsame⟩
    · intro _ other hother place hplace
      obtain ⟨ev, hev, htouches⟩ := (hentered _ ⟨other, hother, place, hplace, rfl⟩).touched
      obtain ⟨file, hfile, hsame⟩ := h.only _ ev hev htouches
      obtain ⟨line, hline, mountPoint, hmount, rfl⟩ := mem_tasksFiles.mp hfile
      exact ⟨line, hline, mountPoint, hmount, (samePath_tasks_iff line.path_absolute).mp hsame⟩
    · intro file hfile
      obtain ⟨line, hline, mountPoint, hmount, rfl⟩ := mem_tasksFiles.mp hfile
      obtain ⟨-, other, hother, place, hplace, hsame⟩ := h.found line hline mountPoint hmount
      exact ⟨_, (samePath_tasks_iff line.path_absolute).mpr hsame,
        hentered _ ⟨other, hother, place, hplace, rfl⟩⟩
    · intro path ev hev htouches
      obtain ⟨other, hother, place, hplace, rfl⟩ := htouched path ev hev htouches
      obtain ⟨line, hline, mountPoint, hmount, hsame⟩ :=
        h.others hreadable other hother place hplace
      exact ⟨_, mem_tasksFiles.mpr ⟨line, hline, mountPoint, hmount, rfl⟩,
        (samePath_tasks_iff line.path_absolute).mpr hsame⟩
  · obtain ⟨ho, huntouched⟩ := hmoved.unreadable hrunFiles lines hfile hreadable
    refine ⟨⟨fun h => ⟨?_, fun hall => absurd hall hreadable⟩, fun h => ⟨?_, ?_⟩⟩,
      iff_of_false ho hreadable⟩
    · intro line hline mountPoint hmount
      obtain ⟨path, -, hpath⟩ :=
        h.entered _ (mem_tasksFiles.mpr ⟨line, hline, mountPoint, hmount, rfl⟩)
      obtain ⟨ev, hev, htouches⟩ := hpath.touched
      exact absurd htouches (huntouched path ev hev)
    · intro file hfile
      obtain ⟨line, hline, mountPoint, hmount, -⟩ := mem_tasksFiles.mp hfile
      exact absurd (h.found line hline mountPoint hmount).1 hreadable
    · intro path ev hev htouches
      exact absurd htouches (huntouched path ev hev)

def memoryCgroups : List Bytes := [ascii "memory\t4\t100\t1"]

def memoryMountinfo : List Bytes :=
  [ascii "36 31 0:33 / /sys/fs/cgroup/memory rw shared:18 - cgroup cgroup rw,memory"]

/-- A host with one `cgroup` mount, that of the memory controller, on which process 1
has the given line in its `cgroup` file. -/
def memoryHost (line : HierarchyLine) : Files := fun path =>
  if path = ascii "/proc/1/cgroup" then .ok ((linesOf (contentOf [line])).map .ok)
  else if path = cgroupsPath then .ok (memoryCgroups.map .ok)
  else if path = mountinfoPath then .ok (memoryMountinfo.map .ok)
  else .error (.os .perm)

/-- The answers of a host on which everything can be written. -/
def writableHost (files : Files) : (c : Syscall) → c.Answer
  | .openLines path => files path
  | .openFile _ _ => .ok ()
  | .write _ bytes => .ok ⟨bytes.length, by omega⟩
  | c => c.refused

theorem serves_writableHost {files : Files} {log : Log}
    (h : ∀ ev ∈ log, ev.2 = writableHost files ev.1) :
    (∀ ev ∈ log, Serves files ev) ∧ ∀ ev ∈ log, ¬OpenRefused ev := by
  constructor
  · rintro ⟨c, r⟩ hev
    have hr : r = writableHost files c := h _ hev
    cases c <;> first | exact hr | trivial
  · rintro ⟨c, r⟩ hev
    have hr : r = writableHost files c := h _ hev
    cases c <;> (subst hr; exact id)

def memoryLine (path : Bytes) (habsolute : path.head? = some slash) (hplain : newline ∉ path) :
    HierarchyLine where
  id := 4
  controllers := [ascii "memory"]
  path := path
  controllers_ne_nil := by simp
  controllers_plain := by decide
  path_absolute := habsolute
  path_plain := hplain

theorem exists_runs_memoryHost (line : HierarchyLine) (pid targetPid : Pid)
    (hplayMounts : (getMounts.replay (fun _ => writableHost (memoryHost line)) 3 []).any
      (fun r => r.1.isValue) = true)
    (hplay : ((CgroupV1Manager.moveTo ⟨ascii "/proc"⟩ pid targetPid).replay
      (fun _ => writableHost (memoryHost line)) 3 []).any (fun r => r.1.isValue) = true) :
    ∃ mountsLog log,
      getMounts.Runs (tracing linux) [] (.value (mountsOf memoryCgroups memoryMountinfo))
        mountsLog ∧
      (∀ ev ∈ mountsLog, Serves (memoryHost line) ev) ∧
      (CgroupV1Manager.moveTo ⟨ascii "/proc"⟩ pid targetPid).Runs (tracing linux) []
        (.value ()) log ∧
      (∀ ev ∈ log, Serves (memoryHost line) ev) ∧ (∀ ev ∈ log, ¬OpenRefused ev) ∧
      ∀ ev ∈ log, ¬WriteFailed ev := by
  obtain ⟨mountpoints, mountsLog, hmounts, hmountsAnswers⟩ :=
    Program.Runs.exists_of_replay _ 3 hplayMounts
  obtain ⟨⟨⟩, log, hrun, hanswers⟩ := Program.Runs.exists_of_replay _ 3 hplay
  obtain ⟨hmountsFiles, -⟩ := serves_writableHost hmountsAnswers
  have hread : MountsRead mountpoints mountsLog := .of_runs hmounts
  obtain rfl := hread.eq_mountsOf hmountsFiles memoryCgroups memoryMountinfo rfl rfl
  obtain ⟨hfiles, hopen⟩ := serves_writableHost hanswers
  obtain ⟨calls, rfl, hmoved⟩ := moved_of_run hrun
  exact ⟨mountsLog, _, hmounts, hmountsFiles, hrun, hfiles, hopen, hmoved.calm⟩

/-- A process in `/user.slice` of the memory hierarchy is not followed there:
nothing is written at all. -/
theorem moveTo_skips_userSlice :
    ∃ line mountpoints mountsLog log,
      line = memoryLine (ascii "/user.slice") (by decide) (by decide) ∧
      getMounts.Runs (tracing linux) [] (.value mountpoints) mountsLog ∧
      (∀ ev ∈ mountsLog, Serves (memoryHost line) ev) ∧
      (CgroupV1Manager.moveTo ⟨ascii "/proc"⟩ ⟨7, by decide⟩ ⟨1, by decide⟩).Runs
        (tracing linux) [] (.value ()) log ∧
      (∀ ev ∈ log, Serves (memoryHost line) ev) ∧ (∀ ev ∈ log, ¬OpenRefused ev) ∧
      (∀ ev ∈ log, ¬WriteFailed ev) ∧
      ¬WritesExactly ⟨7, by decide⟩
        ([line].filterMap (HierarchyLine.tasksFile mountpoints)) log := by
  obtain ⟨line, hline⟩ : ∃ line, line = memoryLine (ascii "/user.slice") (by decide)
    (by decide) := ⟨_, rfl⟩
  obtain ⟨mountsLog, log, hmounts, hmountsFiles, hrun, hfiles, hopen, hcalm⟩ :=
    exists_runs_memoryHost line ⟨7, by decide⟩ ⟨1, by decide⟩ (by rw [hline]; decide +kernel)
      (by rw [hline]; decide +kernel)
  refine ⟨line, _, mountsLog, log, hline, hmounts, hmountsFiles, hrun, hfiles, hopen, hcalm,
    fun h => ?_⟩
  obtain ⟨calls, rfl, hmoved⟩ := moved_of_run hrun
  have hreadable : ∀ other ∈ [line], other.Readable := by
    rw [hline]
    exact List.forall_mem_singleton.mpr (isUtf8_of_all (by decide +kernel))
  obtain ⟨-, -, htouched⟩ := hmoved.calls hfiles hopen hcalm [line] rfl hreadable
    (.of_runs hmounts) hmountsFiles
  have hwritten := h.entered (ascii "/sys/fs/cgroup/memory/user.slice/tasks")
    (by rw [hline]; decide +kernel)
  obtain ⟨path, -, hpath⟩ := hwritten
  obtain ⟨ev, hev, htouches⟩ := hpath.touched
  obtain ⟨cgroup, hcgroup, hsome⟩ :=
    Opened.iff_cgroupV1Path.mp (htouched path ev hev htouches)
  obtain rfl : cgroup = ascii "user.slice" := by
    rw [List.mem_singleton.mp hcgroup, hline]
    decide +kernel
  have hnone : cgroupV1Path (ascii "user.slice") (mountsOf memoryCgroups memoryMountinfo) =
      none := by
    decide +kernel
  rw [hnone] at hsome
  cases hsome

theorem firstMounted_memory :
    FirstMounted (mountsOf memoryCgroups memoryMountinfo) [ascii "memory"]
      (ascii "/sys/fs/cgroup/memory") :=
  ⟨[], _, [], rfl, by decide +kernel, by simp⟩

/-- The path `/memory` names the memory hierarchy. -/
theorem pathsNameHierarchies_memory (line : HierarchyLine)
    (hline : line = memoryLine (ascii "/memory") (by decide) (by decide)) :
    PathsNameHierarchies (mountsOf memoryCgroups memoryMountinfo) [line] := by
  have hpart : line.pathPart.splitOn comma = [ascii "memory"] := by
    rw [hline]
    decide +kernel
  have hcontrollers : line.controllers = [ascii "memory"] := by
    rw [hline]
    rfl
  have hsame : SameCgroup (ascii "/sys/fs/cgroup/memory") line.pathPart
      (ascii "/sys/fs/cgroup/memory") line.path := by
    rw [hline]
    exact ⟨by decide +kernel, [], .inl (by decide +kernel)⟩
  have hreadable : ∀ other ∈ [line], other.Readable := by
    rw [hline]
    exact List.forall_mem_singleton.mpr (isUtf8_of_all (by decide +kernel))
  constructor
  · intro line' hmem mountPoint hmount
    obtain rfl := List.mem_singleton.mp hmem
    obtain rfl := (hcontrollers ▸ hmount).unique firstMounted_memory
    exact ⟨hreadable, line', hmem, _, hpart ▸ firstMounted_memory, hsame⟩
  · intro _ other hmem place hplace
    obtain rfl := List.mem_singleton.mp hmem
    obtain rfl := (hpart ▸ hplace).unique firstMounted_memory
    exact ⟨other, hmem, _, hcontrollers ▸ firstMounted_memory, hsame⟩

/-- A process in a cgroup that is called as its controller is followed. -/
theorem moveTo_writesExactly_memory :
    ∃ line mountpoints mountsLog log,
      line = memoryLine (ascii "/memory") (by decide) (by decide) ∧
      getMounts.Runs (tracing linux) [] (.value mountpoints) mountsLog ∧
      (CgroupV1Manager.moveTo ⟨ascii "/proc"⟩ ⟨7, by decide⟩ ⟨1, by decide⟩).Runs
        (tracing linux) [] (.value ()) log ∧
      (∀ ev ∈ log, Serves (memoryHost line) ev) ∧ (∀ ev ∈ log, ¬OpenRefused ev) ∧
      (∀ ev ∈ log, ¬WriteFailed ev) ∧
      WritesExactly ⟨7, by decide⟩
        ([line].filterMap (HierarchyLine.tasksFile mountpoints)) log ∧
      line.tasksFile mountpoints = some (ascii "/sys/fs/cgroup/memory/memory/tasks") := by
  obtain ⟨line, hline⟩ : ∃ line, line = memoryLine (ascii "/memory") (by decide)
    (by decide) := ⟨_, rfl⟩
  obtain ⟨mountsLog, log, hmounts, hmountsFiles, hrun, hfiles, hopen, hcalm⟩ :=
    exists_runs_memoryHost line ⟨7, by decide⟩ ⟨1, by decide⟩ (by rw [hline]; decide +kernel)
      (by rw [hline]; decide +kernel)
  refine ⟨line, mountsOf memoryCgroups memoryMountinfo, mountsLog, log, hline, hmounts, hrun,
    hfiles, hopen, hcalm, ?_, ?_⟩
  · have hexactly := moveTo_writesExactly_iff ⟨ascii "/proc"⟩ ⟨7, by decide⟩ ⟨1, by decide⟩
      (memoryHost line) [line] _ mountsLog log _ rfl hmounts hmountsFiles hrun hfiles hopen hcalm
    exact hexactly.1.mpr (pathsNameHierarchies_memory line hline)
  · rw [hline]
    decide +kernel

end Cntr.CgroupV1Migration
