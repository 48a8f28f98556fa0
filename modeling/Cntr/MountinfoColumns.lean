import Cntr.CgroupV1Migration
import Cntr.OctalEscapes

namespace Cntr.MountinfoColumns

open Cntr.ByteText
open Cntr.CallTree
open Cntr.SystemCalls
open Cntr.TextSplitting
open Cntr.OctalEscapes
open Cntr.CgroupManagers
open Cntr.CgroupV1Migration

/-- What the kernel shows as digits in mountinfo. -/
def mountinfoEscapes : EscapeSet where
  bytes := [space, tab, newline, backslash]
  space_mem := by decide
  newline_mem := by decide
  backslash_mem := by decide
  slash_notMem := by decide
  dot_notMem := by decide

def Plain (field : Bytes) : Prop := space ∉ field ∧ newline ∉ field

/-- A line of mountinfo. The fields are those that are shown, but for the mount
point, which is the path itself. -/
structure Mount where
  id : Bytes
  parent : Bytes
  device : Bytes
  root : Bytes
  mountPoint : Path
  options : Bytes
  optionalFields : List Bytes
  fstype : Bytes
  source : Bytes
  superOptions : Bytes
  plain : ∀ field ∈ [id, parent, device, root, options, fstype, source, superOptions] ++
    optionalFields, Plain field
  optionalFields_ne : ascii "-" ∉ optionalFields

namespace Mount

def front (mount : Mount) : List Bytes :=
  [mount.id, mount.parent, mount.device, mount.root,
    escape mountinfoEscapes mount.mountPoint, mount.options] ++ mount.optionalFields ++
    [ascii "-", mount.fstype, mount.source]

def text (mount : Mount) : Bytes := [space].intercalate (mount.front ++ [mount.superOptions])

/-- The controllers a mount of type `cgroup` lists. -/
def controllers (mount : Mount) : List Bytes := mount.superOptions.splitOn comma

/-- The last field as it is read: a carriage return at the end of the line is lost. -/
def lastField (mount : Mount) : Bytes := stripCarriageReturn mount.superOptions

/-- The tenth column, where the type is looked for. -/
def typeColumn (mount : Mount) : Bytes :=
  match mount.optionalFields with
  | [] => mount.lastField
  | [_] => mount.source
  | [_, _] => mount.fstype
  | [_, _, _] => ascii "-"
  | _ :: _ :: _ :: field :: _ => field

/-- The eleventh column, where the controllers are looked for. -/
def optionsColumn (mount : Mount) : Option Bytes :=
  match mount.optionalFields with
  | [] => none
  | [_] => some mount.lastField
  | [_, _] => some mount.source
  | [_, _, _] => some mount.fstype
  | [_, _, _, _] => some (ascii "-")
  | _ :: _ :: _ :: _ :: field :: _ => some field

def fields (mount : Mount) : List Bytes := mount.front ++ [mount.lastField]

theorem fields_typeColumn (mount : Mount) : mount.fields.getD 9 [] = mount.typeColumn := by
  unfold fields front typeColumn
  rcases mount.optionalFields with _ | ⟨a, _ | ⟨b, _ | ⟨c, _ | ⟨d, rest⟩⟩⟩⟩ <;> rfl

theorem fields_optionsColumn (mount : Mount) :
    mount.optionsColumn =
      if mount.fields.length < 11 then none else some (mount.fields.getD 10 []) := by
  unfold fields front optionsColumn
  rcases mount.optionalFields with _ | ⟨a, _ | ⟨b, _ | ⟨c, _ | ⟨d, _ | ⟨e, rest⟩⟩⟩⟩⟩ <;> simp

theorem fields_mountPoint (mount : Mount) :
    mount.fields.getD 4 [] = escape mountinfoEscapes mount.mountPoint := rfl

theorem fields_length (mount : Mount) : 10 ≤ mount.fields.length := by
  simp [fields, front]

theorem plain_of_mem {mount : Mount} {field : Bytes} (h : field ∈ mount.front) : Plain field := by
  have hplain := mount.plain
  simp only [List.forall_mem_append, List.forall_mem_cons] at hplain
  obtain ⟨⟨hid, hparent, hdevice, hroot, hoptions, hfstype, hsource, -, -⟩, hfields⟩ := hplain
  have hdash : Plain (ascii "-") := by
    unfold Plain
    decide
  simp only [front, List.mem_append, List.mem_cons, List.not_mem_nil, or_false] at h
  rcases h with ((rfl | rfl | rfl | rfl | rfl | rfl) | h) | (rfl | rfl | rfl)
  · exact hid
  · exact hparent
  · exact hdevice
  · exact hroot
  · exact ⟨space_not_mem_escape _ _, newline_not_mem_escape _ _⟩
  · exact hoptions
  · exact hfields field h
  · exact hdash
  · exact hfstype
  · exact hsource

theorem plain_superOptions (mount : Mount) : Plain mount.superOptions :=
  mount.plain _ (by simp)

theorem front_ne_nil (mount : Mount) : mount.front ≠ [] := by
  simp [front]

theorem text_plain (mount : Mount) : newline ∉ mount.text := by
  apply not_mem_intercalate (by decide)
  intro field hfield
  rcases List.mem_append.mp hfield with hfield | hfield
  · exact (plain_of_mem hfield).2
  · rw [List.mem_singleton.mp hfield]
    exact mount.plain_superOptions.2

theorem space_not_mem_lastField (mount : Mount) : space ∉ mount.lastField := by
  unfold lastField stripCarriageReturn
  split
  · exact fun h => mount.plain_superOptions.1 (List.dropLast_subset _ h)
  · exact mount.plain_superOptions.1

theorem splitOn_text (mount : Mount) :
    (stripCarriageReturn mount.text).splitOn space = mount.fields := by
  have htext : stripCarriageReturn mount.text = [space].intercalate mount.fields := by
    rw [text, fields, intercalate_concat _ mount.front_ne_nil,
      intercalate_concat _ mount.front_ne_nil, List.append_assoc,
      stripCarriageReturn_append _ (by simp), List.singleton_append,
      stripCarriageReturn_cons (by decide)]
    simp [lastField]
  rw [htext]
  apply List.splitOn_intercalate
  · intro field hfield
    rcases List.mem_append.mp hfield with hfield | hfield
    · exact (plain_of_mem hfield).1
    · rw [List.mem_singleton.mp hfield]
      exact mount.space_not_mem_lastField
  · simp [fields]

end Mount

def contentOf (mounts : List Mount) : Bytes :=
  (mounts.map Mount.text).flatMap (· ++ [newline])

def Mount.readLine (mount : Mount) : Bytes := stripCarriageReturn mount.text

theorem linesOf_contentOf (mounts : List Mount) :
    linesOf (contentOf mounts) = mounts.map Mount.readLine := by
  rw [contentOf, linesOf_flatMap, List.map_map]
  · rfl
  · intro text htext
    obtain ⟨mount, -, rfl⟩ := List.mem_map.mp htext
    exact mount.text_plain

structure Subsystem where
  name : Bytes
  hierarchy : Nat
  numCgroups : Nat
  enabled : Bool
  name_ascii : ∀ b ∈ name, b.toNat < 128
  name_plain : tab ∉ name ∧ newline ∉ name
  name_ne_comment : name.head? ≠ some 35

namespace Subsystem

def enabledField (subsystem : Subsystem) : Bytes :=
  if subsystem.enabled then ascii "1" else ascii "0"

def front (subsystem : Subsystem) : List Bytes :=
  [subsystem.name, decimal subsystem.hierarchy, decimal subsystem.numCgroups]

def text (subsystem : Subsystem) : Bytes :=
  [tab].intercalate (subsystem.front ++ [subsystem.enabledField])

theorem not_mem_of_mem {subsystem : Subsystem} {b : UInt8} (hname : b ∉ subsystem.name)
    (hdigit : b.toNat < 48 ∨ 57 < b.toNat) {field : Bytes}
    (h : field ∈ subsystem.front ++ [subsystem.enabledField]) : b ∉ field := by
  have hdecimal : ∀ n, b ∉ decimal n := by
    intro n hb
    have hrange := digit_of_mem_decimal hb
    omega
  have henabled : b ∉ subsystem.enabledField := by
    intro hb
    unfold enabledField at hb
    split at hb
    · exact hdecimal 1 hb
    · exact hdecimal 0 hb
  simp only [front, List.mem_append, List.mem_cons, List.not_mem_nil, or_false] at h
  rcases h with (rfl | rfl | rfl) | rfl
  · exact hname
  · exact hdecimal _
  · exact hdecimal _
  · exact henabled

theorem splitOn_text (subsystem : Subsystem) :
    subsystem.text.splitOn tab = subsystem.front ++ [subsystem.enabledField] :=
  List.splitOn_intercalate tab
    (fun _ hfield => not_mem_of_mem subsystem.name_plain.1 (.inl (by decide)) hfield) (by simp)

theorem text_plain (subsystem : Subsystem) : newline ∉ subsystem.text :=
  not_mem_intercalate (by decide) fun _ hfield =>
    not_mem_of_mem subsystem.name_plain.2 (.inl (by decide)) hfield

theorem stripCarriageReturn_text (subsystem : Subsystem) :
    stripCarriageReturn subsystem.text = subsystem.text := by
  have hlast : stripCarriageReturn subsystem.enabledField = subsystem.enabledField := by
    unfold enabledField
    split <;> rfl
  have hne : subsystem.enabledField ≠ [] := by
    unfold enabledField
    split <;> decide
  rw [text, intercalate_concat _ (by simp [front]), stripCarriageReturn_append _ hne, hlast]

theorem text_head (subsystem : Subsystem) : subsystem.text.head? ≠ some 35 := by
  have hname := subsystem.name_ne_comment
  rw [text, front, List.cons_append, List.cons_append, List.intercalate_cons_cons]
  generalize subsystem.name = name at hname ⊢
  cases name with
  | nil => simp [tab]
  | cons b name => simpa using hname

theorem subsystemOf_text (subsystem : Subsystem) :
    subsystemOf subsystem.text = if subsystem.enabled then some subsystem.name else none := by
  rw [subsystemOf, if_neg subsystem.text_head, splitOn_text]
  cases henabled : subsystem.enabled <;> simp [front, enabledField, henabled, ascii]

theorem utf8_text (subsystem : Subsystem) : isUtf8 subsystem.text = true := by
  apply isUtf8_of_ascii
  intro b hb
  by_contra hbig
  have hname : b ∉ subsystem.name := fun h => hbig (subsystem.name_ascii b h)
  have htab : b ≠ tab := by
    rintro rfl
    exact hbig (by decide)
  apply not_mem_intercalate (by simpa using htab) (fun field hfield => ?_) hb
  exact not_mem_of_mem hname (.inr (by omega)) hfield

end Subsystem

def cgroupsHeader : Bytes := ascii "#subsys_name\thierarchy\tnum_cgroups\tenabled"

def cgroupsContentOf (subsystems : List Subsystem) : Bytes :=
  (cgroupsHeader :: subsystems.map Subsystem.text).flatMap (· ++ [newline])

def enabledNames (subsystems : List Subsystem) : List Bytes :=
  (subsystems.filter Subsystem.enabled).map Subsystem.name

theorem linesOf_cgroupsContentOf (subsystems : List Subsystem) :
    linesOf (cgroupsContentOf subsystems) = cgroupsHeader :: subsystems.map Subsystem.text := by
  have hplain : ∀ line ∈ cgroupsHeader :: subsystems.map Subsystem.text, newline ∉ line := by
    intro line hline
    rcases List.mem_cons.mp hline with rfl | hline
    · decide
    · obtain ⟨subsystem, -, rfl⟩ := List.mem_map.mp hline
      exact subsystem.text_plain
  have hheader : stripCarriageReturn cgroupsHeader = cgroupsHeader := by decide
  rw [cgroupsContentOf, linesOf_flatMap hplain, List.map_cons, hheader, List.map_map]
  simp only [Function.comp_def, Subsystem.stripCarriageReturn_text]

theorem utf8_cgroups (subsystems : List Subsystem) :
    (linesOf (cgroupsContentOf subsystems)).all isUtf8 = true := by
  have hheader : isUtf8 cgroupsHeader = true := by decide +kernel
  simp [linesOf_cgroupsContentOf, hheader, Subsystem.utf8_text]

theorem filterMap_subsystemOf (subsystems : List Subsystem) :
    (linesOf (cgroupsContentOf subsystems)).filterMap subsystemOf = enabledNames subsystems := by
  have hheader : subsystemOf cgroupsHeader = none := by decide
  rw [linesOf_cgroupsContentOf, List.filterMap_cons, hheader]
  induction subsystems with
  | nil => rfl
  | cons subsystem subsystems ih =>
      rw [List.map_cons, List.filterMap_cons, subsystem.subsystemOf_text]
      cases henabled : subsystem.enabled
      · simpa [enabledNames, henabled] using ih
      · simpa [enabledNames, henabled] using ih

def lastWith (p : Mount → Bool) (mounts : List Mount) : Option Mount :=
  (mounts.filter p).getLast?

theorem lastWith_cons (p : Mount → Bool) (mount : Mount) (mounts : List Mount) :
    lastWith p (mount :: mounts) =
      if p mount then some ((lastWith p mounts).getD mount) else lastWith p mounts := by
  unfold lastWith
  by_cases hp : p mount = true
  · rw [List.filter_cons_of_pos hp, List.getLast?_cons, if_pos hp]
  · rw [List.filter_cons_of_neg hp, if_neg hp]

/-- A value that each mount with `p` sets anew is that of the last one. -/
theorem foldl_lastWith {σ γ : Type} (p : Mount → Bool) (value : Mount → γ)
    (step : σ → Mount → σ) (found : σ → Option γ)
    (hstep : ∀ s mount, found (step s mount) = if p mount then some (value mount) else found s)
    (mounts : List Mount) (s : σ) :
    found (mounts.foldl step s) = ((lastWith p mounts).map value).or (found s) := by
  induction mounts generalizing s with
  | nil => rfl
  | cons mount mounts ih =>
      rw [List.foldl_cons, ih, hstep, lastWith_cons]
      by_cases hp : p mount = true
      · rw [if_pos hp, if_pos hp]
        cases lastWith p mounts <;> rfl
      · rw [if_neg hp, if_neg hp]

theorem detectMount_readLine (detected : DetectedMounts) (mount : Mount) :
    (detectMount detected mount.readLine).hasV1 =
        (detected.hasV1 || decide (mount.typeColumn = ascii "cgroup")) ∧
      (detectMount detected mount.readLine).v2Mount =
        if mount.typeColumn = ascii "cgroup2" then some (escape mountinfoEscapes mount.mountPoint)
        else detected.v2Mount := by
  have hlength := mount.fields_length
  have hne : ascii "cgroup" ≠ ascii "cgroup2" := by decide
  rw [detectMount, Mount.readLine, mount.splitOn_text, mount.fields_typeColumn,
    mount.fields_mountPoint, if_neg (by omega)]
  by_cases hv1 : mount.typeColumn = ascii "cgroup"
  · simp [hv1, hne]
  · by_cases hv2 : mount.typeColumn = ascii "cgroup2"
    · simp [hv2, Ne.symm hne]
    · simp [hv1, hv2]

/-- What `create_manager` has found at the end of mountinfo. -/
def detectedIn (mounts : List Mount) : DetectedMounts :=
  (mounts.map Mount.readLine).foldl detectMount ⟨false, none⟩

theorem detectedIn_hasV1 (mounts : List Mount) :
    (detectedIn mounts).hasV1 = true ↔ ∃ mount ∈ mounts, mount.typeColumn = ascii "cgroup" := by
  have hfold : ∀ detected, ((mounts.map Mount.readLine).foldl detectMount detected).hasV1 = true ↔
      detected.hasV1 = true ∨ ∃ mount ∈ mounts, mount.typeColumn = ascii "cgroup" := by
    induction mounts with
    | nil => simp
    | cons mount mounts ih =>
        intro detected
        rw [List.map_cons, List.foldl_cons, ih, (detectMount_readLine detected mount).1]
        simp [or_assoc]
  have hstart := hfold ⟨false, none⟩
  simpa [detectedIn] using hstart

theorem detectedIn_v2Mount (mounts : List Mount) :
    (detectedIn mounts).v2Mount =
      (lastWith (fun mount => mount.typeColumn = ascii "cgroup2") mounts).map
        fun mount => escape mountinfoEscapes mount.mountPoint := by
  rw [detectedIn, List.foldl_map, foldl_lastWith
    (fun mount => mount.typeColumn = ascii "cgroup2")
    (fun mount => escape mountinfoEscapes mount.mountPoint)
    (fun detected mount => detectMount detected mount.readLine) DetectedMounts.v2Mount]
  · simp
  · intro detected mount
    simpa using (detectMount_readLine detected mount).2

/-- The names that `get_mounts` finds in a line, enabled or not. -/
def Mount.readControllers (mount : Mount) : List Bytes :=
  match mount.optionsColumn with
  | some options =>
      if mount.typeColumn = ascii "cgroup" then (options.splitOn comma).map optionName else []
  | none => []

theorem insertOption_apply (subsystems : List Bytes) (mountPoint : Path)
    (mountpoints : Mountpoints) (option : Bytes) {name : Bytes} (hname : name ∈ subsystems) :
    insertOption subsystems mountPoint mountpoints option name =
      if name = optionName option then some mountPoint else mountpoints name := by
  unfold insertOption
  by_cases heq : name = optionName option
  · subst heq
    simp [hname]
  · rw [if_neg heq]
    split
    · exact Function.update_of_ne heq _ _
    · rfl

theorem foldl_insertOption (subsystems : List Bytes) (mountPoint : Path)
    (options : List Bytes) (mountpoints : Mountpoints) {name : Bytes} (hname : name ∈ subsystems) :
    options.foldl (insertOption subsystems mountPoint) mountpoints name =
      if name ∈ options.map optionName then some mountPoint else mountpoints name := by
  induction options generalizing mountpoints with
  | nil => simp
  | cons option options ih =>
      rw [List.foldl_cons, ih, insertOption_apply _ _ _ _ hname, List.map_cons]
      by_cases hrest : name ∈ options.map optionName
      · rw [if_pos hrest, if_pos (List.mem_cons_of_mem _ hrest)]
      · rw [if_neg hrest]
        by_cases heq : name = optionName option
        · rw [if_pos heq, if_pos (heq ▸ List.mem_cons_self)]
        · rw [if_neg heq, if_neg (by simpa [heq] using hrest)]

theorem insertMount_readLine (subsystems : List Bytes) (mountpoints : Mountpoints)
    (mount : Mount) {name : Bytes} (hname : name ∈ subsystems) :
    insertMount subsystems mountpoints mount.readLine name =
      if name ∈ mount.readControllers then some (escape mountinfoEscapes mount.mountPoint)
      else mountpoints name := by
  rw [insertMount, Mount.readLine, mount.splitOn_text, mount.fields_typeColumn,
    mount.fields_mountPoint, Mount.readControllers, mount.fields_optionsColumn]
  by_cases hlength : mount.fields.length < 11
  · simp [hlength]
  · by_cases htype : mount.typeColumn = ascii "cgroup"
    · simp only [hlength, htype, not_true, or_false, if_false, if_true, ne_eq]
      exact foldl_insertOption _ _ _ _ hname
    · simp [hlength, htype]

theorem mountsOf_apply (mounts : List Mount) (subsystems : List Subsystem) {name : Bytes}
    (hname : name ∈ enabledNames subsystems) :
    mountsOf (linesOf (cgroupsContentOf subsystems)) (mounts.map Mount.readLine) name =
      (lastWith (fun mount => name ∈ mount.readControllers) mounts).map
        fun mount => escape mountinfoEscapes mount.mountPoint := by
  rw [mountsOf, filterMap_subsystemOf, List.foldl_map]
  have hfold := foldl_lastWith (fun mount => name ∈ mount.readControllers)
    (fun mount => escape mountinfoEscapes mount.mountPoint)
    (fun mountpoints mount => insertMount (enabledNames subsystems) mountpoints mount.readLine)
    (fun mountpoints => mountpoints name) ?_ mounts fun _ => none
  · simpa using hfold
  · intro mountpoints mount
    simpa using insertMount_readLine (enabledNames subsystems) mountpoints mount hname

/-- What there is to read on a host with these mounts and subsystems. -/
def hostFiles (mounts : List Mount) (subsystems : List Subsystem) (other : Files) : Files :=
  fun path =>
    if path = cgroupsPath then .ok ((linesOf (cgroupsContentOf subsystems)).map .ok)
    else if path = mountinfoPath then .ok ((linesOf (contentOf mounts)).map .ok)
    else other path

theorem hostFiles_cgroups (mounts : List Mount) (subsystems : List Subsystem) (other : Files) :
    hostFiles mounts subsystems other cgroupsPath =
      .ok ((linesOf (cgroupsContentOf subsystems)).map .ok) :=
  if_pos rfl

theorem hostFiles_mountinfo (mounts : List Mount) (subsystems : List Subsystem)
    (other : Files) :
    hostFiles mounts subsystems other mountinfoPath =
      .ok ((linesOf (contentOf mounts)).map .ok) := by
  rw [hostFiles, if_neg (by decide), if_pos rfl]

theorem readOutcome_mountinfo {mounts : List Mount} {subsystems : List Subsystem}
    {other : Files} {r : Except IoError (List (Except IoError Bytes))}
    (h : Serves (hostFiles mounts subsystems other) ⟨.openLines mountinfoPath, r⟩) :
    readOutcome mountinfoPath r =
      if (mounts.map Mount.readLine).all isUtf8 then .value (mounts.map Mount.readLine)
      else .error (.readFailed mountinfoPath .invalidData) := by
  rw [h.eq, hostFiles_mountinfo, readOutcome_ok, linesOf_contentOf]

theorem readOutcome_cgroups {mounts : List Mount} {subsystems : List Subsystem}
    {other : Files} {r : Except IoError (List (Except IoError Bytes))}
    (h : Serves (hostFiles mounts subsystems other) ⟨.openLines cgroupsPath, r⟩) :
    readOutcome cgroupsPath r = .value (linesOf (cgroupsContentOf subsystems)) := by
  rw [h.eq, hostFiles_cgroups, readOutcome_ok, if_pos (utf8_cgroups subsystems)]

theorem createManager_run {mounts : List Mount} {subsystems : List Subsystem} {other : Files}
    {o : Outcome Halt CgroupError CgroupManager} {log : Log}
    (run : createManager.Runs (tracing linux) [] o log)
    (hserves : ∀ ev ∈ log, Serves (hostFiles mounts subsystems other) ev) :
    if (mounts.map Mount.readLine).all isUtf8 then
      ∃ procfsPath, o = .value (managerFor (detectedIn mounts) procfsPath)
    else ∃ e, o = .error e := by
  rcases run.of_bind with ⟨lines, t, first, rest⟩ | ⟨e, rfl, first⟩ | ⟨h, rfl, first⟩
  · obtain ⟨r, hr, rfl⟩ := readLines_run first
    rw [readOutcome_mountinfo (hserves _ (rest.log_prefix.subset (by simp)))] at hr
    split at hr
    · next hutf8 =>
        obtain rfl : lines = mounts.map Mount.readLine := by simpa using hr
        rw [if_pos hutf8]
        refine rest.of_wp (G := fun _ _ => True)
          (Q := fun o _ => ∃ procfsPath, o = .value (managerFor (detectedIn mounts) procfsPath))
          ?_
        rw [Program.bind_eq, Program.wp_bind]
        exact Procfs.getPath_wp trivial fun procfsPath _ => ⟨procfsPath, rfl⟩
    · cases hr
  · obtain ⟨r, hr, rfl⟩ := readLines_run first
    rw [readOutcome_mountinfo (hserves _ (by simp))] at hr
    split at hr
    · cases hr
    · next hutf8 =>
        rw [if_neg hutf8]
        exact ⟨e, rfl⟩
  · obtain ⟨r, hr, rfl⟩ := readLines_run first
    rw [readOutcome_mountinfo (hserves _ (by simp))] at hr
    split at hr <;> cases hr

theorem createManager_runs (mounts : List Mount) (subsystems : List Subsystem) (other : Files) :
    ∃ o log, createManager.Runs (tracing linux) [] o log ∧
      ∀ ev ∈ log, Serves (hostFiles mounts subsystems other) ev := by
  have hfirst := readLines_runs mountinfoPath (hostFiles mounts subsystems other mountinfoPath) []
  cases houtcome : readOutcome mountinfoPath (hostFiles mounts subsystems other mountinfoPath) with
  | value lines =>
      rw [houtcome] at hfirst
      refine ⟨_, _, hfirst.bind (.call (S := linux) (.getenv (ascii "CNTR_PROC")) none
        (.stop _ _)), ?_⟩
      simp [Serves]
  | error e =>
      rw [houtcome] at hfirst
      refine ⟨_, _, hfirst.bind_error, ?_⟩
      simp [Serves]
  | halted h =>
      have hserved : Serves (hostFiles mounts subsystems other)
          ⟨.openLines mountinfoPath, hostFiles mounts subsystems other mountinfoPath⟩ := rfl
      rw [readOutcome_mountinfo hserved] at houtcome
      split at houtcome <;> cases houtcome

theorem getMounts_run {mounts : List Mount} {subsystems : List Subsystem} {other : Files}
    {o : Outcome Halt CgroupError Mountpoints} {log : Log}
    (run : getMounts.Runs (tracing linux) [] o log)
    (hserves : ∀ ev ∈ log, Serves (hostFiles mounts subsystems other) ev) :
    if (mounts.map Mount.readLine).all isUtf8 then
      o = .value (mountsOf (linesOf (cgroupsContentOf subsystems)) (mounts.map Mount.readLine))
    else ∃ e, o = .error e := by
  rw [getMounts, getSubsystems, Program.bind_eq, Program.bind_eq, Program.bind_assoc] at run
  rcases run.of_bind with ⟨names, t, first, rest⟩ | ⟨e, rfl, first⟩ | ⟨h, rfl, first⟩
  · obtain ⟨r, hr, rfl⟩ := readLines_run first
    rw [readOutcome_cgroups (hserves _ (rest.log_prefix.subset (by simp)))] at hr
    obtain rfl : names = linesOf (cgroupsContentOf subsystems) := by simpa using hr
    rw [Program.pure_eq, Program.done_bind, Program.bind_eq] at rest
    rcases rest.of_bind with
      ⟨lines, t, second, rest'⟩ | ⟨e, rfl, second⟩ | ⟨h, rfl, second⟩
    · obtain ⟨r', hr', rfl⟩ := readLines_run second
      cases rest'
      rw [readOutcome_mountinfo (hserves _ (by simp))] at hr'
      split at hr'
      · next hutf8 =>
          obtain rfl : lines = mounts.map Mount.readLine := by simpa using hr'
          rw [if_pos hutf8]
          rfl
      · cases hr'
    · obtain ⟨r', hr', rfl⟩ := readLines_run second
      rw [readOutcome_mountinfo (hserves _ (by simp))] at hr'
      split at hr'
      · cases hr'
      · next hutf8 =>
          rw [if_neg hutf8]
          exact ⟨e, rfl⟩
    · obtain ⟨r', hr', rfl⟩ := readLines_run second
      rw [readOutcome_mountinfo (hserves _ (by simp))] at hr'
      split at hr' <;> cases hr'
  · obtain ⟨r, hr, rfl⟩ := readLines_run first
    rw [readOutcome_cgroups (hserves _ (by simp))] at hr
    cases hr
  · obtain ⟨r, hr, rfl⟩ := readLines_run first
    rw [readOutcome_cgroups (hserves _ (by simp))] at hr
    cases hr

theorem getMounts_runs (mounts : List Mount) (subsystems : List Subsystem) (other : Files) :
    ∃ o log, getMounts.Runs (tracing linux) [] o log ∧
      ∀ ev ∈ log, Serves (hostFiles mounts subsystems other) ev := by
  have hfirst := readLines_runs cgroupsPath (hostFiles mounts subsystems other cgroupsPath) []
  have hcgroups : Serves (hostFiles mounts subsystems other)
      ⟨.openLines cgroupsPath, hostFiles mounts subsystems other cgroupsPath⟩ := rfl
  have hmountinfo : Serves (hostFiles mounts subsystems other)
      ⟨.openLines mountinfoPath, hostFiles mounts subsystems other mountinfoPath⟩ := rfl
  rw [readOutcome_cgroups hcgroups] at hfirst
  have hsecond := readLines_runs mountinfoPath (hostFiles mounts subsystems other mountinfoPath)
    [⟨.openLines cgroupsPath, hostFiles mounts subsystems other cgroupsPath⟩]
  rw [readOutcome_mountinfo hmountinfo] at hsecond
  rw [getMounts, getSubsystems, Program.bind_eq, Program.bind_eq, Program.bind_assoc]
  by_cases hutf8 : (mounts.map Mount.readLine).all isUtf8 = true
  · rw [if_pos hutf8] at hsecond
    refine ⟨_, _, hfirst.bind (hsecond.bind (.stop _ _)), ?_⟩
    simp [Serves]
  · rw [if_neg hutf8] at hsecond
    refine ⟨_, _, hfirst.bind hsecond.bind_error, ?_⟩
    simp [Serves]

def hasV1 : CgroupManager → Bool
  | .v1 _ | .hybrid _ => true
  | .v2 _ | .null => false

def v2Mount : CgroupManager → Option Path
  | .v2 manager => some manager.mountPath
  | .hybrid manager => some manager.v2.mountPath
  | .v1 _ | .null => none

theorem hasV1_managerFor (detected : DetectedMounts) (procfsPath : Path) :
    hasV1 (managerFor detected procfsPath) = detected.hasV1 := by
  obtain ⟨_ | _, _ | mountPath⟩ := detected <;> rfl

theorem v2Mount_managerFor (detected : DetectedMounts) (procfsPath : Path) :
    v2Mount (managerFor detected procfsPath) = detected.v2Mount := by
  obtain ⟨_ | _, _ | mountPath⟩ := detected <;> rfl

/-- A path is found just when there is a mount of the kind, and is its mount point. -/
def Locates (found : Option Path) (right : Mount → Prop) (mounts : List Mount) : Prop :=
  (found.isSome ↔ ∃ mount ∈ mounts, right mount) ∧
    ∀ path, found = some path → ∃ mount ∈ mounts, right mount ∧ mount.mountPoint = path

/-- `create_manager` does not fail and tells which versions are mounted. -/
def ManagerFits (mounts : List Mount) (o : Outcome Halt CgroupError CgroupManager) : Prop :=
  ∃ manager, o = .value manager ∧
    (hasV1 manager = true ↔ ∃ mount ∈ mounts, mount.fstype = ascii "cgroup") ∧
    Locates (v2Mount manager) (fun mount => mount.fstype = ascii "cgroup2") mounts

/-- `get_mounts` tells where the enabled controllers are mounted. -/
def MountsFit (mounts : List Mount) (subsystems : List Subsystem)
    (o : Outcome Halt CgroupError Mountpoints) : Prop :=
  ∃ mountpoints, o = .value mountpoints ∧ ∀ name ∈ enabledNames subsystems,
    Locates (mountpoints name)
      (fun mount => mount.fstype = ascii "cgroup" ∧ name ∈ mount.controllers) mounts

/-- What is found by looking at a column is what there is. -/
def Agrees (found : Option Mount) (right : Mount → Prop) (mounts : List Mount) : Prop :=
  match found with
  | none => ∀ mount ∈ mounts, ¬right mount
  | some last =>
      ∃ mount ∈ mounts, right mount ∧ mount.mountPoint = escape mountinfoEscapes last.mountPoint

/-- Every line is UTF-8, and the tenth and the eleventh column, with the mount
points as they are shown, tell what the type and the options tell. -/
structure ColumnsFit (mounts : List Mount) (subsystems : List Subsystem) : Prop where
  utf8 : ∀ mount ∈ mounts, isUtf8 mount.readLine = true
  v1 : (∃ mount ∈ mounts, mount.typeColumn = ascii "cgroup") ↔
    ∃ mount ∈ mounts, mount.fstype = ascii "cgroup"
  v2 : Agrees (lastWith (fun mount => mount.typeColumn = ascii "cgroup2") mounts)
    (fun mount => mount.fstype = ascii "cgroup2") mounts
  controllers : ∀ name ∈ enabledNames subsystems,
    Agrees (lastWith (fun mount => name ∈ mount.readControllers) mounts)
      (fun mount => mount.fstype = ascii "cgroup" ∧ name ∈ mount.controllers) mounts

theorem locates_iff (found : Option Mount) (right : Mount → Prop) (mounts : List Mount) :
    Locates (found.map fun mount => escape mountinfoEscapes mount.mountPoint) right mounts ↔
      Agrees found right mounts := by
  cases found with
  | none =>
      constructor
      · intro h mount hmount hright
        have hsome := h.1.mpr ⟨mount, hmount, hright⟩
        simp at hsome
      · intro h
        constructor
        · constructor
          · intro hsome
            simp at hsome
          · rintro ⟨mount, hmount, hright⟩
            exact absurd hright (h mount hmount)
        · intro path hpath
          cases hpath
  | some last =>
      constructor
      · intro h
        exact h.2 _ rfl
      · rintro ⟨mount, hmount, hright, hpath⟩
        constructor
        · exact iff_of_true rfl ⟨mount, hmount, hright⟩
        · intro path hfound
          obtain rfl : escape mountinfoEscapes last.mountPoint = path := by simpa using hfound
          exact ⟨mount, hmount, hright, hpath⟩

theorem managerFits_iff (mounts : List Mount) (procfsPath : Path) :
    ManagerFits mounts (.value (managerFor (detectedIn mounts) procfsPath)) ↔
      ((∃ mount ∈ mounts, mount.typeColumn = ascii "cgroup") ↔
        ∃ mount ∈ mounts, mount.fstype = ascii "cgroup") ∧
      Agrees (lastWith (fun mount => mount.typeColumn = ascii "cgroup2") mounts)
        (fun mount => mount.fstype = ascii "cgroup2") mounts := by
  rw [← detectedIn_hasV1, ← locates_iff, ← detectedIn_v2Mount,
    ← hasV1_managerFor _ procfsPath, ← v2Mount_managerFor _ procfsPath]
  constructor
  · rintro ⟨manager, hmanager, h⟩
    cases hmanager
    exact h
  · intro h
    exact ⟨_, rfl, h⟩

theorem mountsFit_iff (mounts : List Mount) (subsystems : List Subsystem) :
    MountsFit mounts subsystems
        (.value (mountsOf (linesOf (cgroupsContentOf subsystems))
          (mounts.map Mount.readLine))) ↔
      ∀ name ∈ enabledNames subsystems,
        Agrees (lastWith (fun mount => name ∈ mount.readControllers) mounts)
          (fun mount => mount.fstype = ascii "cgroup" ∧ name ∈ mount.controllers) mounts := by
  constructor
  · rintro ⟨mountpoints, hmountpoints, h⟩ name hname
    cases hmountpoints
    have hfound := h name hname
    rwa [mountsOf_apply mounts subsystems hname, locates_iff] at hfound
  · intro h
    refine ⟨_, rfl, fun name hname => ?_⟩
    rw [mountsOf_apply mounts subsystems hname, locates_iff]
    exact h name hname

theorem all_isUtf8_readLine (mounts : List Mount) :
    (mounts.map Mount.readLine).all isUtf8 = true ↔
      ∀ mount ∈ mounts, isUtf8 mount.readLine = true := by
  simp [List.all_map]

/-- On which hosts `create_manager` and `get_mounts` find the cgroup mounts. -/
theorem mountinfo_read_iff (mounts : List Mount) (subsystems : List Subsystem)
    (other : Files) :
    ((∀ o log, createManager.Runs (tracing linux) [] o log →
        (∀ ev ∈ log, Serves (hostFiles mounts subsystems other) ev) → ManagerFits mounts o) ∧
      ∀ o log, getMounts.Runs (tracing linux) [] o log →
        (∀ ev ∈ log, Serves (hostFiles mounts subsystems other) ev) →
        MountsFit mounts subsystems o) ↔
      ColumnsFit mounts subsystems := by
  constructor
  · rintro ⟨hmanager, hmounts⟩
    obtain ⟨o, log, run, hserves⟩ := createManager_runs mounts subsystems other
    obtain ⟨o', log', run', hserves'⟩ := getMounts_runs mounts subsystems other
    have hfits := hmanager o log run hserves
    have hfits' := hmounts o' log' run' hserves'
    have hend := createManager_run run hserves
    have hend' := getMounts_run run' hserves'
    by_cases hutf8 : (mounts.map Mount.readLine).all isUtf8 = true
    · rw [if_pos hutf8] at hend hend'
      obtain ⟨procfsPath, rfl⟩ := hend
      subst hend'
      obtain ⟨hv1, hv2⟩ := (managerFits_iff mounts procfsPath).mp hfits
      exact ⟨(all_isUtf8_readLine mounts).mp hutf8, hv1, hv2,
        (mountsFit_iff mounts subsystems).mp hfits'⟩
    · rw [if_neg hutf8] at hend
      obtain ⟨e, rfl⟩ := hend
      obtain ⟨manager, he, -⟩ := hfits
      cases he
  · intro h
    have hutf8 := (all_isUtf8_readLine mounts).mpr h.utf8
    constructor
    · intro o log run hserves
      have hend := createManager_run run hserves
      rw [if_pos hutf8] at hend
      obtain ⟨procfsPath, rfl⟩ := hend
      exact (managerFits_iff mounts procfsPath).mpr ⟨h.v1, h.v2⟩
    · intro o log run hserves
      have hend := getMounts_run run hserves
      rw [if_pos hutf8] at hend
      subst hend
      exact (mountsFit_iff mounts subsystems).mpr h.controllers

/-- A `cgroup2` mount that is private, so that its line has no optional field. -/
def privateUnified : Mount where
  id := ascii "36"
  parent := ascii "31"
  device := ascii "0:33"
  root := ascii "/"
  mountPoint := ascii "/sys/fs/cgroup"
  options := ascii "rw"
  optionalFields := []
  fstype := ascii "cgroup2"
  source := ascii "cgroup2"
  superOptions := ascii "rw"
  plain := by
    unfold Plain
    decide
  optionalFields_ne := by simp

/-- A host with nothing but a private `cgroup2` mount has no cgroups for
`create_manager`. -/
theorem createManager_misses_privateUnified :
    ∃ o log, createManager.Runs (tracing linux) [] o log ∧
      (∀ ev ∈ log, Serves (hostFiles [privateUnified] [] fun _ => .error (.os .perm)) ev) ∧
      ¬ManagerFits [privateUnified] o := by
  obtain ⟨o, log, run, hserves⟩ := createManager_runs [privateUnified] []
    fun _ => .error (.os .perm)
  refine ⟨o, log, run, hserves, fun h => ?_⟩
  have hend := createManager_run run hserves
  rw [if_pos (by decide +kernel)] at hend
  obtain ⟨procfsPath, rfl⟩ := hend
  obtain ⟨-, hv2⟩ := (managerFits_iff _ _).mp h
  have hnone : lastWith (fun mount => mount.typeColumn = ascii "cgroup2") [privateUnified] =
      none := by
    rfl
  rw [hnone] at hv2
  exact hv2 privateUnified (by simp) rfl

end Cntr.MountinfoColumns
