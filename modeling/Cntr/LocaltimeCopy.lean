import Cntr.BaseDirectory

/-!
The copy of the container's `/etc/localtime` shares the base directory with the trees
of the container.
-/

namespace Cntr.LocaltimeCopy

open Cntr.ByteText
open Cntr.CallTree
open Cntr.SystemCalls
open Cntr.AttachChild
open Cntr.BaseDirectory
open Cntr.NamespaceFiles
open Cntr.RootTrees

/-- The last steps of `assembleHierarchy`. -/
def copyAndAttach (containerPid : Pid) (ourMountNs : Namespace) (baseDir : Path) :
    Sys AttachError (Option Path) := do
  let localtimeCopy ← setupContainerTimezone baseDir
  captureAndAttachContainerTrees containerPid ourMountNs baseDir
  return localtimeCopy

def withCopy (baseDir : Path) (localtime : Bytes) : Base :=
  (Base.fresh baseDir).write (copyPath baseDir) localtime

theorem slash_notMem_copyName : slash ∉ copyName := by decide

theorem copyPath_ne_base (baseDir : Path) : copyPath baseDir ≠ baseDir :=
  pushPath_ne_base slash_notMem_copyName (by decide)

theorem withCopy_base (baseDir : Path) (localtime : Bytes) :
    (withCopy baseDir localtime).mounts.points baseDir = some true :=
  (Function.update_of_ne (copyPath_ne_base baseDir).symm _ _).trans (Mounts.fresh_base baseDir)

theorem withCopy_copy (baseDir : Path) (localtime : Bytes) :
    (withCopy baseDir localtime).cell (copyPath baseDir) = ⟨some false, none, localtime⟩ := by
  have hpoint : (withCopy baseDir localtime).mounts.points (copyPath baseDir) = some false :=
    Function.update_self _ _ _
  have hcontents : (withCopy baseDir localtime).contents (copyPath baseDir) = localtime :=
    Function.update_self _ _ _
  rw [Base.cell, hpoint, hcontents]
  rfl

theorem withCopy_other {baseDir path : Path} (localtime : Bytes) (hne : path ≠ copyPath baseDir) :
    (withCopy baseDir localtime).cell path = (Base.fresh baseDir).cell path := by
  have hpoint : (withCopy baseDir localtime).mounts.points path =
      (Base.fresh baseDir).mounts.points path := Function.update_of_ne hne _ _
  have hcontents : (withCopy baseDir localtime).contents path =
      (Base.fresh baseDir).contents path := Function.update_of_ne hne _ _
  rw [Base.cell, hpoint, hcontents]
  rfl

theorem fresh_copy (baseDir : Path) :
    (Base.fresh baseDir).cell (copyPath baseDir) = ⟨none, none, []⟩ := by
  have hpoint : (Base.fresh baseDir).mounts.points (copyPath baseDir) = none :=
    Mounts.fresh_other (copyPath_ne_base baseDir)
  rw [Base.cell, hpoint]
  rfl

section Run

variable {root : RootDirectory} {localtime : Bytes} {baseDir : Path}

theorem setupContainerTimezone_wp :
    (setupContainerTimezone baseDir).wp (holding root localtime) (fun _ _ => True)
      (fun o base => ∀ path, o = .value (some path) →
        path = copyPath baseDir ∧ base = withCopy baseDir localtime) (.fresh baseDir) := by
  refine ⟨trivial, ?_⟩
  rintro (e | _) base answer
  · exact fun path heq => by cases heq
  obtain rfl : base = .fresh baseDir := Base.ext answer.1 answer.2
  refine ⟨trivial, ?_⟩
  rintro (e | contents) base answer
  · exact fun path heq => by cases heq
  obtain ⟨rfl, rfl⟩ := answer
  refine ⟨trivial, ?_⟩
  rintro (e | _) base answer
  · exact fun path heq => by cases heq
  obtain ⟨-, rfl⟩ := answer
  refine ⟨trivial, ?_⟩
  rintro _ base answer path heq
  cases heq
  exact ⟨rfl, Base.ext answer.1 answer.2⟩

theorem assembled_of_copied {containerPid : Pid} {ourMountNs : Namespace} {base : Base}
    {path : Path} (run : (copyAndAttach containerPid ourMountNs baseDir).Runs
      (holding root localtime) (.fresh baseDir) (.value (some path)) base) :
    Assembled root baseDir (withCopy baseDir localtime) base := by
  rcases run.of_bind with ⟨copy, base₁, first, rest⟩ | ⟨e, heq, -⟩ | ⟨h, heq, -⟩
  · rcases rest.of_bind with ⟨_, base₂, second, last⟩ | ⟨e, heq, -⟩ | ⟨h, heq, -⟩
    · cases last
      obtain ⟨rfl, rfl⟩ := first.of_wp setupContainerTimezone_wp path rfl
      exact second.of_wp (captureAndAttach_wp containerPid ourMountNs
        (withCopy_base baseDir localtime)) () rfl
    · cases heq
    · cases heq
  · cases heq
  · cases heq

/-- The bytes of the copy are what they were, and nothing is mounted over it. -/
def Untouched (baseDir : Path) (localtime : Bytes) (base : Base) : Prop :=
  base.contents (copyPath baseDir) = localtime ∧ base.mounts.mounted (copyPath baseDir) = none

/-- What would be attached without the copy is attached with it. -/
def Unobstructed (root : RootDirectory) (baseDir : Path) (without base : Base) : Prop :=
  ∀ entry ∈ root.entries, entry.captured = true →
    Attached baseDir entry without.mounts → Attached baseDir entry base.mounts

/-- No captured entry has the name of the copy, unless the copy is empty and the tree of
the entry does not fit a file. -/
def Apart (root : RootDirectory) (localtime : Bytes) : Prop :=
  ∀ entry ∈ root.entries, entry.captured = true → entry.name = copyName →
    localtime = [] ∧ entry.takenForDir = false ∧ entry.node.resolvesToDir = some true

theorem target_eq_copy_iff {entry : Entry} (hentry : entry ∈ root.entries) :
    target baseDir entry = copyPath baseDir ↔ entry.name = copyName := by
  constructor
  · exact pushPath_inj (root.named entry hentry).2 slash_notMem_copyName
  · intro hname
    rw [target, hname, copyPath]

theorem attached_iff_cell {entry : Entry} {base : Base} :
    Attached baseDir entry base.mounts ↔
      (base.cell (target baseDir entry)).mounted = some entry ∧
        (base.cell (target baseDir entry)).point = entry.node.resolvesToDir := Iff.rfl

theorem untouched_iff_cell {base : Base} :
    Untouched baseDir localtime base ↔ (base.cell (copyPath baseDir)).contents = localtime ∧
      (base.cell (copyPath baseDir)).mounted = none := Iff.rfl

theorem resolvesToDir_of_taken {entry : Entry} (h : entry.takenForDir = true) :
    entry.node.resolvesToDir = some true := by
  obtain ⟨hdirectory, -⟩ := (Bool.and_eq_true _ _).mp h
  rw [of_decide_eq_true hdirectory]
  rfl

theorem attach_copy_iff {entry : Entry} (hcaptured : entry.captured = true)
    (hfile : entry.takenForDir = false) :
    ((⟨some false, none, localtime⟩ : Cell).attach entry).contents = localtime ∧
      ((⟨some false, none, localtime⟩ : Cell).attach entry).mounted = none ↔
    localtime = [] ∧ entry.node.resolvesToDir = some true := by
  obtain ⟨-, hsome⟩ := (Bool.and_eq_true _ _).mp hcaptured
  obtain ⟨isDir, hisDir⟩ := Option.isSome_iff_exists.mp hsome
  rw [Cell.attach, hfile, hisDir]
  cases isDir with
  | true => simp [eq_comm]
  | false => simp

theorem cell_copy {base : Base} (h : Assembled root baseDir (withCopy baseDir localtime) base)
    {entry : Entry} (hentry : entry ∈ root.entries) (hcaptured : entry.captured = true)
    (hname : entry.name = copyName) :
    base.cell (copyPath baseDir) = (⟨some false, none, localtime⟩ : Cell).attach entry := by
  rw [← withCopy_copy, ← (target_eq_copy_iff hentry).mpr hname]
  exact h.cell_own hentry hcaptured

theorem apart_of_spared {without base : Base}
    (hwithout : Assembled root baseDir (.fresh baseDir) without)
    (h : Assembled root baseDir (withCopy baseDir localtime) base)
    (huntouched : Untouched baseDir localtime base)
    (hsame : Unobstructed root baseDir without base) : Apart root localtime := by
  intro entry hentry hcaptured hname
  rw [untouched_iff_cell, cell_copy h hentry hcaptured hname] at huntouched
  cases htaken : entry.takenForDir with
  | true =>
      have hfits := resolvesToDir_of_taken htaken
      have htarget : target baseDir entry = copyPath baseDir :=
        (target_eq_copy_iff hentry).mpr hname
      have hattached : Attached baseDir entry without.mounts := by
        rw [attached_iff_cell, hwithout.cell_own hentry hcaptured, htarget, fresh_copy,
          Cell.attach, htaken, hfits]
        exact ⟨rfl, rfl⟩
      have hmounted := (attached_iff_cell.mp (hsame entry hentry hcaptured hattached)).1
      rw [htarget, cell_copy h hentry hcaptured hname, huntouched.2] at hmounted
      cases hmounted
  | false =>
      obtain ⟨hempty, hdir⟩ := (attach_copy_iff hcaptured htaken).mp huntouched
      exact ⟨hempty, rfl, hdir⟩

theorem untouched_of_apart {base : Base}
    (h : Assembled root baseDir (withCopy baseDir localtime) base)
    (hapart : Apart root localtime) : Untouched baseDir localtime base := by
  rw [untouched_iff_cell]
  by_cases hcollides : ∃ entry ∈ root.entries, entry.captured = true ∧ entry.name = copyName
  · obtain ⟨entry, hentry, hcaptured, hname⟩ := hcollides
    obtain ⟨hempty, hfile, hdir⟩ := hapart entry hentry hcaptured hname
    rw [cell_copy h hentry hcaptured hname]
    exact (attach_copy_iff hcaptured hfile).mpr ⟨hempty, hdir⟩
  · rw [h.cell_other, withCopy_copy]
    · exact ⟨rfl, rfl⟩
    · intro entry hentry hcaptured heq
      exact hcollides ⟨entry, hentry, hcaptured, (target_eq_copy_iff hentry).mp heq.symm⟩

theorem unobstructed_of_apart {without base : Base}
    (hwithout : Assembled root baseDir (.fresh baseDir) without)
    (h : Assembled root baseDir (withCopy baseDir localtime) base)
    (hapart : Apart root localtime) : Unobstructed root baseDir without base := by
  intro entry hentry hcaptured hattached
  rw [attached_iff_cell, hwithout.cell_own hentry hcaptured] at hattached
  rw [attached_iff_cell, h.cell_own hentry hcaptured]
  by_cases hname : entry.name = copyName
  · obtain ⟨-, hfile, hdir⟩ := hapart entry hentry hcaptured hname
    rw [(target_eq_copy_iff hentry).mpr hname, fresh_copy, Cell.attach, hfile, hdir] at hattached
    cases hattached.1
  · rwa [withCopy_other localtime fun heq => hname ((target_eq_copy_iff hentry).mp heq)]

theorem spares_iff {without base : Base}
    (hwithout : Assembled root baseDir (.fresh baseDir) without)
    (h : Assembled root baseDir (withCopy baseDir localtime) base) :
    Untouched baseDir localtime base ∧ Unobstructed root baseDir without base ↔
      Apart root localtime := by
  constructor
  · rintro ⟨huntouched, hsame⟩
    exact apart_of_spared hwithout h huntouched hsame
  · intro hapart
    exact ⟨untouched_of_apart h hapart, unobstructed_of_apart hwithout h hapart⟩

end Run

/-- The copy and the trees leave each other alone if and only if no captured entry of
the container's root directory is called like the copy. -/
theorem copyAndAttach_spares_iff (root : RootDirectory) (localtime : Bytes) (containerPid : Pid)
    (ourMountNs : Namespace) (baseDir : Path) {path : Path} {without base : Base}
    (runWithout : (captureAndAttachContainerTrees containerPid ourMountNs baseDir).Runs
      (holding root localtime) (.fresh baseDir) (.value ()) without)
    (run : (copyAndAttach containerPid ourMountNs baseDir).Runs (holding root localtime)
      (.fresh baseDir) (.value (some path)) base) :
    Untouched baseDir localtime base ∧ Unobstructed root baseDir without base ↔
      Apart root localtime := by
  have hbase : (Base.fresh baseDir).mounts.points baseDir = some true := Mounts.fresh_base baseDir
  exact spares_iff (runWithout.of_wp (captureAndAttach_wp containerPid ourMountNs hbase) () rfl)
    (assembled_of_copied run)

/-- A state of the mounts in which the descriptors in use are known, and the files. -/
structure Stocked where
  served : Served
  contents : Path → Bytes

namespace Stocked

def base (stocked : Stocked) : Base := ⟨stocked.served.mounts, stocked.contents⟩

/-- A kernel on which whatever may succeed does. -/
def answer (root : RootDirectory) (localtime : Bytes) (stocked : Stocked) :
    (c : Syscall) → c.Answer × Stocked
  | .openLocaltime => (.ok (), stocked)
  | .readToEnd .localtime => (.ok localtime, stocked)
  | .writePath path contents =>
      if stocked.served.mounts.points path = some true then (.error (.os .perm), stocked)
      else
        (.ok (), ⟨stocked.served.create path false,
          Function.update stocked.contents path contents⟩)
  | c =>
      ((stocked.served.answer root c).1, ⟨(stocked.served.answer root c).2,
        truncated stocked.contents ⟨c, (stocked.served.answer root c).1⟩⟩)

theorem holding_answer (root : RootDirectory) (localtime : Bytes) (stocked : Stocked)
    (c : Syscall) :
    holding root localtime stocked.base c (stocked.answer root localtime c).1
      (stocked.answer root localtime c).2.base := by
  have hserved := stocked.served.mounting_answer root c
  cases c with
  | openLocaltime => exact ⟨rfl, rfl⟩
  | readToEnd file =>
      cases file with
      | localtime => exact ⟨rfl, rfl⟩
      | _ => exact ⟨rfl, rfl⟩
  | writePath path contents =>
      rw [answer]
      split
      · exact ⟨rfl, rfl⟩
      · next h => exact ⟨h, rfl⟩
  | _ => exact ⟨hserved, rfl⟩

theorem of_play {root : RootDirectory} {localtime : Bytes} {ε α : Type} {p : Sys ε α}
    {stocked stocked' : Stocked} {o : Outcome Halt ε α}
    (h : p.play (answer root localtime) 1 stocked = some (o, stocked')) :
    p.Runs (holding root localtime) stocked.base o stocked'.base := by
  have hrun : p.Runs (fun s c r t => r = (answer root localtime s c).1 ∧
      t = (answer root localtime s c).2) stocked o stocked' := .of_play (fun _ _ => ⟨rfl, rfl⟩) h
  refine hrun.map (f := Stocked.base) fun s c r t hcall => ?_
  obtain ⟨rfl, rfl⟩ := hcall
  exact holding_answer root localtime s c

def start (baseDir : Path) : Stocked := ⟨.start baseDir, fun _ => []⟩

end Stocked

def tzif : Bytes := ascii "TZif2"

theorem copyAndAttach_spares_etc :
    ∃ without base,
      (captureAndAttachContainerTrees someTarget ownMountNs tmpfsPath).Runs
        (holding plainRoot tzif) (.fresh tmpfsPath) (.value ()) without ∧
      (copyAndAttach someTarget ownMountNs tmpfsPath).Runs (holding plainRoot tzif)
        (.fresh tmpfsPath) (.value (some (copyPath tmpfsPath))) base ∧
      Apart plainRoot tzif ∧ Untouched tmpfsPath tzif base ∧
      Unobstructed plainRoot tmpfsPath without base := by
  have hplay : ((copyAndAttach someTarget ownMountNs tmpfsPath).play
      (Stocked.answer plainRoot tzif) 1 (Stocked.start tmpfsPath)).any
        (fun r => decide (r.1 = .value (some (copyPath tmpfsPath)))) = true := by
    decide +kernel
  have hplay' : ((captureAndAttachContainerTrees someTarget ownMountNs tmpfsPath).play
      (Stocked.answer plainRoot tzif) 1 (Stocked.start tmpfsPath)).any
        (fun r => decide (r.1 = .value ())) = true := by
    decide +kernel
  obtain ⟨⟨o, stocked⟩, hrun, hend⟩ := (Option.any_eq_true _ _).mp hplay
  obtain rfl := of_decide_eq_true hend
  obtain ⟨⟨o', without⟩, hrun', hend'⟩ := (Option.any_eq_true _ _).mp hplay'
  obtain rfl := of_decide_eq_true hend'
  have hapart : Apart plainRoot tzif := by
    intro entry hentry _ hname
    obtain rfl := List.mem_singleton.mp hentry
    exact absurd hname (by decide)
  exact ⟨without.base, stocked.base, Stocked.of_play hrun', Stocked.of_play hrun, hapart,
    (copyAndAttach_spares_iff plainRoot tzif someTarget ownMountNs tmpfsPath
      (Stocked.of_play hrun') (Stocked.of_play hrun)).mpr hapart⟩

def dotLocaltime : Entry := ⟨copyName, .regularFile, true, true, true⟩

/-- A container with a file `.localtime` in its root directory. -/
def collidingRoot : RootDirectory := ⟨[etcEntry, dotLocaltime], by decide, by decide, by decide⟩

/-- The copy is truncated to make a mount point for the file of that name. -/
theorem copyAndAttach_truncates :
    ∃ base, (copyAndAttach someTarget ownMountNs tmpfsPath).Runs (holding collidingRoot tzif)
        (.fresh tmpfsPath) (.value (some (copyPath tmpfsPath))) base ∧
      base.contents (copyPath tmpfsPath) = [] ∧
      base.mounts.mounted (copyPath tmpfsPath) = some dotLocaltime ∧
      ¬Untouched tmpfsPath tzif base := by
  have hplay : ((copyAndAttach someTarget ownMountNs tmpfsPath).play
      (Stocked.answer collidingRoot tzif) 1 (Stocked.start tmpfsPath)).any (fun r =>
        decide (r.1 = .value (some (copyPath tmpfsPath)) ∧
          r.2.contents (copyPath tmpfsPath) = [] ∧
          r.2.served.mounts.mounted (copyPath tmpfsPath) = some dotLocaltime)) = true := by
    decide +kernel
  obtain ⟨⟨o, stocked⟩, hrun, hend⟩ := (Option.any_eq_true _ _).mp hplay
  obtain ⟨rfl, hcontents, hmounted⟩ := of_decide_eq_true hend
  refine ⟨stocked.base, Stocked.of_play hrun, hcontents, hmounted, ?_⟩
  rintro ⟨huntouched, -⟩
  cases hcontents.symm.trans huntouched

end Cntr.LocaltimeCopy
