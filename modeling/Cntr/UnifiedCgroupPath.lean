import Cntr.HybridFallback
import Cntr.PathResolution

/-!
Where the file lies that the v2 manager writes the PID to.
-/

namespace Cntr.UnifiedCgroupPath

open Cntr.ByteText
open Cntr.CallTree
open Cntr.SystemCalls
open Cntr.CgroupManagers
open Cntr.CgroupV1Migration
open Cntr.HybridFallback
open Cntr.PathResolution

def stepOf (part : Bytes) : Step Bytes :=
  if part = [] ∨ part = ascii "." then .here
  else if part = ascii ".." then .up
  else .down part

def stepsOf (path : Path) : List (Step Bytes) := (path.splitOn slash).map stepOf

/-- The names of a path from the root once `.` and `..` are resolved. -/
def normalize (path : Path) : Position Bytes := lexical [] (stepsOf path)

theorem stepsOf_append (path path' : Path) :
    stepsOf (path ++ slash :: path') = stepsOf path ++ stepsOf path' := by
  rw [stepsOf, List.splitOn_append_cons_self, List.map_append]
  rfl

theorem normalize_pushPath {base rel : Path} (hrel : rel.head? ≠ some slash) :
    normalize (pushPath base rel) = lexical (normalize base) (stepsOf rel) := by
  rw [pushPath, if_neg hrel]
  split
  · rw [normalize, stepsOf_append, lexical_append, normalize]
  · next hslash =>
      rcases List.eq_nil_or_concat base with rfl | ⟨front, last, rfl⟩
      · rfl
      · rw [List.concat_eq_append] at hslash ⊢
        obtain rfl : last = slash := by simpa using hslash
        have hfront : normalize (front ++ [slash]) = normalize front := by
          rw [normalize, stepsOf_append, lexical_append]
          rfl
        rw [hfront, List.append_assoc, normalize, List.singleton_append, stepsOf_append,
          lexical_append, normalize]

/-- The slashes in front make no difference. -/
theorem lexical_trimStartMatches (cur : Position Bytes) (path : Path) :
    lexical cur (stepsOf (trimStartMatches slash path)) = lexical cur (stepsOf path) := by
  induction path with
  | nil => rfl
  | cons b path ih =>
      by_cases hb : b = slash
      · rw [hb, ← List.nil_append (slash :: path), stepsOf_append, lexical_append]
        exact ih
      · rw [trimStartMatches, List.dropWhile_cons_of_neg]
        simpa using hb

theorem head_trimStartMatches (path : Path) :
    (trimStartMatches slash path).head? ≠ some slash := by
  intro hhead
  have hnot := List.head?_dropWhile_not (· == slash) path
  rw [trimStartMatches] at hhead
  rw [hhead] at hnot
  simp at hnot

def procsName : Bytes := ascii "cgroup.procs"

theorem normalize_procsPath (manager : CgroupV2Manager) (shown : Bytes) :
    normalize (manager.procsPath shown) =
      lexical (normalize manager.mountPath) (stepsOf shown) ++ [procsName] := by
  have hname : procsName.head? ≠ some slash := by decide
  rw [CgroupV2Manager.procsPath, ← procsName, normalize_pushPath hname,
    normalize_pushPath (head_trimStartMatches shown), lexical_trimStartMatches]
  rfl

/-- A file called `cgroup.procs` in the mount or below it. -/
def Below (mountPath path : Path) : Prop :=
  ∃ dirs, normalize path = normalize mountPath ++ dirs ++ [procsName]

/-- The names that the shown path leaves, once its `..` are resolved, lead back into the
part of the mount path that was climbed out of. -/
def Reenters (mountPath shown : Path) : Prop :=
  (normalize mountPath).drop
    ((normalize mountPath).length - (reduce (stepsOf shown)).climbs) <+:
      (reduce (stepsOf shown)).names

theorem below_iff (manager : CgroupV2Manager) (shown : Bytes) :
    Below manager.mountPath (manager.procsPath shown) ↔ Reenters manager.mountPath shown := by
  rw [Reenters, ← isPrefix_lexical_iff, Below, normalize_procsPath]
  constructor
  · rintro ⟨dirs, heq⟩
    exact ⟨dirs, (List.append_cancel_right heq).symm⟩
  · rintro ⟨dirs, heq⟩
    exact ⟨dirs, by rw [heq]⟩

section Run

variable {manager : CgroupV2Manager} {pid targetPid : Pid} {o : Outcome Halt CgroupError Unit}

theorem shown_of_opened {read : Except IoError (Option Bytes)} {rest : Log}
    (h : V2Ended manager pid read o rest) {path : Path} {mode : OpenMode}
    {r : Except IoError Unit} (hmem : ⟨.openFile path mode, r⟩ ∈ rest) :
    ∃ shown, read = .ok (some shown) ∧ path = manager.procsPath shown := by
  cases h with
  | unreadable => cases hmem
  | absent => cases hmem
  | @refused shown e =>
      cases List.mem_singleton.mp hmem
      exact ⟨shown, rfl, rfl⟩
  | @opened shown res writes written =>
      rcases List.mem_cons.mp hmem with hev | hmem
      · cases hev
        exact ⟨shown, rfl, rfl⟩
      · obtain ⟨bytes, res, hev⟩ := written.only _ hmem
        cases hev

theorem opened_of_shown {shown : Bytes} {rest : Log}
    (h : V2Ended manager pid (.ok (some shown)) o rest) :
    ∃ r, ⟨.openFile (manager.procsPath shown) .append, r⟩ ∈ rest := by
  cases h with
  | refused => exact ⟨_, List.mem_singleton_self _⟩
  | opened written => exact ⟨_, List.mem_cons_self⟩

/-- Whatever is opened to be written lies in the mount or below it. -/
def WritesBelow (mountPath : Path) (log : Log) : Prop :=
  ∀ path mode r, mode ≠ .read → ⟨.openFile path mode, r⟩ ∈ log → Below mountPath path

/-- `move_to` writes below the mount if and only if the names of the path it read lead
back to where the `..` before them climb out of. -/
theorem moveTo_writesBelow_iff (manager : CgroupV2Manager) (pid targetPid : Pid)
    {o : Outcome Halt CgroupError Unit} {log : Log}
    (run : (manager.moveTo pid targetPid).Runs (tracing linux) [] o log) :
    WritesBelow manager.mountPath log ↔
      ∀ read shown, ⟨.openLines (cgroupFile manager.procfsPath targetPid), read⟩ ∈ log →
        unifiedPath read = .ok (some shown) → Reenters manager.mountPath shown := by
  obtain ⟨read, rest, rfl, hended⟩ := run.of_wp v2_moveTo_wp
  constructor
  · intro hbelow read' shown hmem hshown
    rcases List.mem_cons.mp hmem with hev | hmem
    · cases hev
      rw [hshown] at hended
      obtain ⟨r, hopen⟩ := opened_of_shown hended
      have hmode : OpenMode.append ≠ .read := by decide
      exact (below_iff manager shown).mp (hbelow _ _ r hmode (List.mem_cons_of_mem _ hopen))
    · exact absurd hmem hended.not_openLines
  · intro hreenters path mode r _ hmem
    rcases List.mem_cons.mp hmem with hev | hmem
    · cases hev
    · obtain ⟨shown, hshown, rfl⟩ := shown_of_opened hended hmem
      exact (below_iff manager shown).mpr (hreenters read shown List.mem_cons_self hshown)

end Run

/-- A name of a cgroup. -/
def IsName (name : Bytes) : Prop :=
  slash ∉ name ∧ name ≠ [] ∧ name ≠ ascii "." ∧ name ≠ ascii ".."

/-- What the kernel shows for a cgroup that is reached from the root of the reader's cgroup
namespace by so many `..` and then by the names. -/
def shownText (climbs : Nat) (names : List Bytes) : Bytes :=
  (List.replicate climbs (ascii "..") ++ names).flatMap (slash :: ·)

theorem stepsOf_flatMap {parts : List Bytes} (hparts : ∀ part ∈ parts, slash ∉ part)
    (front : Path) :
    stepsOf (front ++ parts.flatMap (slash :: ·)) = stepsOf front ++ parts.map stepOf := by
  induction parts generalizing front with
  | nil => rw [List.flatMap_nil, List.append_nil, List.map_nil, List.append_nil]
  | cons part parts ih =>
      have hpart : stepsOf part = [stepOf part] := by
        rw [stepsOf, List.splitOn_eq_singleton (hparts part List.mem_cons_self)]
        rfl
      rw [List.flatMap_cons, List.cons_append, stepsOf_append,
        ih (fun part' hmem => hparts part' (List.mem_cons_of_mem _ hmem)), hpart]
      rfl

theorem reduce_shownText (climbs : Nat) {names : List Bytes}
    (hnames : ∀ name ∈ names, IsName name) :
    reduce (stepsOf (shownText climbs names)) = ⟨climbs, names⟩ := by
  have hparts : ∀ part ∈ List.replicate climbs (ascii "..") ++ names, slash ∉ part := by
    intro part hmem
    rcases List.mem_append.mp hmem with hmem | hmem
    · rw [List.eq_of_mem_replicate hmem]
      decide
    · exact (hnames part hmem).1
  have hdowns : names.map stepOf = names.map .down := by
    refine List.map_congr_left fun name hmem => ?_
    obtain ⟨-, hempty, hdot, hdots⟩ := hnames name hmem
    rw [stepOf, if_neg (not_or.mpr ⟨hempty, hdot⟩), if_neg hdots]
  have hsteps : stepsOf (shownText climbs names) =
      .here :: (List.replicate climbs .up ++ names.map .down) := by
    rw [shownText, ← List.nil_append (List.flatMap _ _), stepsOf_flatMap hparts, List.map_append,
      List.map_replicate, hdowns]
    rfl
  rw [hsteps, reduce, List.foldl_cons]
  exact reduce_ups_downs climbs names

/-- A path that the kernel shows without `..` never leads out of the mount. -/
theorem reenters_unclimbed (mountPath : Path) {names : List Bytes}
    (hnames : ∀ name ∈ names, IsName name) : Reenters mountPath (shownText 0 names) := by
  rw [Reenters, reduce_shownText 0 hnames, Nat.sub_zero, List.drop_length]
  exact List.nil_prefix

def sysFsManager : CgroupV2Manager := ⟨ascii "/sys/fs/cgroup", ascii "/proc"⟩

theorem moveTo_writesBelow_userSlice :
    (sysFsManager.moveTo ⟨7, by decide⟩ ⟨1, by decide⟩).Runs (tracing linux) [] (.value ())
        unifiedLog ∧
      WritesBelow sysFsManager.mountPath unifiedLog := by
  have hrun : (sysFsManager.moveTo ⟨7, by decide⟩ ⟨1, by decide⟩).Runs (tracing linux) []
      (.value ()) unifiedLog := .of_replay (fun _ => writableHost unifiedHost) 3 rfl
  refine ⟨hrun, (moveTo_writesBelow_iff sysFsManager ⟨7, by decide⟩ ⟨1, by decide⟩
    hrun).mpr fun read shown hmem hshown => ?_⟩
  have hread : unifiedPath (.ok [.ok (ascii "0::/user.slice")]) =
      .ok (some (shownText 0 [ascii "user.slice"])) := by
    decide +kernel
  obtain rfl : .ok [.ok (ascii "0::/user.slice")] = read := by
    rcases List.mem_cons.mp hmem with heq | hmem
    · cases heq
      rfl
    · simp at hmem
  rw [hread] at hshown
  obtain rfl : shownText 0 [ascii "user.slice"] = shown := by simpa using hshown
  refine reenters_unclimbed _ fun name hname => ?_
  rw [List.mem_singleton.mp hname]
  exact ⟨by decide, by decide, by decide, by decide⟩

/-- The target is outside of the cgroup namespace of the reader. -/
def outsideHost : Files := fun path =>
  if path = ascii "/proc/1/cgroup" then .ok [.ok (ascii "0::/../system.slice")]
  else .error (.os .perm)

/-- The PID is written to a file beside the mount. -/
theorem moveTo_leavesMount :
    ∃ log r, (sysFsManager.moveTo ⟨7, by decide⟩ ⟨1, by decide⟩).Runs (tracing linux) []
        (.value ()) log ∧
      ⟨.openFile (ascii "/sys/fs/cgroup/../system.slice/cgroup.procs") .append, r⟩ ∈ log ∧
      ¬WritesBelow sysFsManager.mountPath log := by
  obtain ⟨⟨⟩, log, run, hanswers⟩ := Program.Runs.exists_of_replay
    (p := sysFsManager.moveTo ⟨7, by decide⟩ ⟨1, by decide⟩) (writableHost outsideHost) 3
    (by decide +kernel)
  obtain ⟨read, rest, rfl, hended⟩ := run.of_wp v2_moveTo_wp
  have hserves : Serves outsideHost ⟨.openLines (cgroupFile sysFsManager.procfsPath
      ⟨1, by decide⟩), read⟩ := (serves_writableHost hanswers).1 _ List.mem_cons_self
  have hread : unifiedPath (outsideHost (cgroupFile sysFsManager.procfsPath ⟨1, by decide⟩)) =
      .ok (some (ascii "/../system.slice")) := by
    decide +kernel
  rw [hserves.eq, hread] at hended
  obtain ⟨r, hopen⟩ := opened_of_shown hended
  have hpath : sysFsManager.procsPath (ascii "/../system.slice") =
      ascii "/sys/fs/cgroup/../system.slice/cgroup.procs" := by
    decide
  have hmem := List.mem_cons_of_mem ⟨.openLines (cgroupFile sysFsManager.procfsPath
    ⟨1, by decide⟩), read⟩ hopen
  refine ⟨_, r, run, hpath ▸ hmem, fun hbelow => ?_⟩
  have hreenters := (below_iff sysFsManager _).mp (hbelow _ .append r (by decide) hmem)
  rw [Reenters] at hreenters
  revert hreenters
  decide

end Cntr.UnifiedCgroupPath
