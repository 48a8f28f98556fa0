import Cntr.LocaltimeCopy
import Cntr.PathResolution

/-!
Where the trees are rooted that `attach` takes from the root directory of a container,
when some of its entries are symlinks.
-/

namespace Cntr.LinkTargets

open Cntr.ByteText
open Cntr.CallTree
open Cntr.SystemCalls
open Cntr.AttachChild
open Cntr.BaseDirectory
open Cntr.LocaltimeCopy
open Cntr.NamespaceFiles
open Cntr.PathResolution (FileTree Position Step)
open Cntr.RootTrees

/-- As many symlinks as a lookup may follow. -/
def maxSymlinks : Nat := 40

/-- `open_tree` looks a name up relative to the container's root directory, but absolute
symlinks start at the root of the mount namespace that was entered, and so does `..` end
there. -/
def lookup (tree : FileTree Bytes) (rootDir : Position Bytes) (name : Bytes) :
    Option (Position Bytes) :=
  tree.resolve [] maxSymlinks rootDir [.down name]

/-- What an entry is said to be agrees with the files. -/
def Matches (tree : FileTree Bytes) (rootDir : Position Bytes) (entry : Entry) : Prop :=
  match entry.node with
  | .directory => tree.node (rootDir ++ [entry.name]) = some .directory
  | .regularFile | .other => tree.node (rootDir ++ [entry.name]) = some .file
  | .symlink targetIsDir =>
      (∃ link, tree.node (rootDir ++ [entry.name]) = some (.symlink link)) ∧
        targetIsDir = (lookup tree rootDir entry.name).map fun pos =>
          decide (tree.node pos = some .directory)

/-- The files of a mount namespace, and a container whose root directory is one of them. -/
structure Container where
  tree : FileTree Bytes
  rootDir : Position Bytes
  isDir : tree.node rootDir = some .directory
  root : RootDirectory
  listed : ∀ entry ∈ root.entries, Matches tree rootDir entry

namespace Container

/-- Where the tree of an entry is rooted. -/
def position (container : Container) (entry : Entry) : Option (Position Bytes) :=
  lookup container.tree container.rootDir entry.name

def Inside (container : Container) (pos : Position Bytes) : Prop := container.rootDir <+: pos

/-- Whatever is attached is rooted in the container. -/
def Confined (container : Container) (base : Base) : Prop :=
  ∀ path entry, base.mounts.mounted path = some entry →
    ∃ pos, container.position entry = some pos ∧ container.Inside pos

/-- No symlink that is captured leads to a file outside. -/
def LinksInside (container : Container) : Prop :=
  ∀ entry ∈ container.root.entries, entry.captured = true → ∀ link pos,
    container.tree.node (container.rootDir ++ [entry.name]) = some (.symlink link) →
    container.position entry = some pos → container.tree.node pos = some .file →
    container.Inside pos

end Container

variable {container : Container} {entry : Entry}

theorem lookup_proper {tree : FileTree Bytes} {rootDir : Position Bytes} {name : Bytes}
    (h : tree.node (rootDir ++ [name]) = some .directory ∨
      tree.node (rootDir ++ [name]) = some .file) :
    lookup tree rootDir name = some (rootDir ++ [name]) := by
  rcases h with h | h
  · simp only [lookup, maxSymlinks, FileTree.resolve, FileTree.walk, h]
  · simp only [lookup, maxSymlinks, FileTree.resolve, FileTree.walk, h, if_true]

/-- What fits its mount point is rooted inside, if the symlinks to files are. -/
theorem inside_of_fits (hlinks : container.LinksInside) (hentry : entry ∈ container.root.entries)
    (hcaptured : entry.captured = true)
    (hfits : some entry.takenForDir = entry.node.resolvesToDir) :
    ∃ pos, container.position entry = some pos ∧ container.Inside pos := by
  have hmatches := container.listed entry hentry
  have hinside : container.Inside (container.rootDir ++ [entry.name]) := List.prefix_append _ _
  obtain ⟨name, node, typed, examined, opens⟩ := entry
  cases node with
  | directory => exact ⟨_, lookup_proper (.inl hmatches), hinside⟩
  | regularFile => exact ⟨_, lookup_proper (.inr hmatches), hinside⟩
  | other => exact ⟨_, lookup_proper (.inr hmatches), hinside⟩
  | symlink targetIsDir =>
      obtain ⟨⟨link, hlink⟩, htarget⟩ := hmatches
      obtain rfl : some false = targetIsDir := hfits
      obtain ⟨pos, hpos, hfile⟩ := Option.map_eq_some_iff.mp htarget.symm
      refine ⟨pos, hpos, hlinks _ hentry hcaptured link pos hlink hpos ?_⟩
      have hnode := FileTree.resolve_node container.tree.top container.isDir hpos
      exact hnode.resolve_left (of_decide_eq_false hfile)

theorem fits_of_link {link : PathResolution.Link Bytes} {pos : Position Bytes}
    (hentry : entry ∈ container.root.entries)
    (hlink : container.tree.node (container.rootDir ++ [entry.name]) = some (.symlink link))
    (hpos : container.position entry = some pos) (hfile : container.tree.node pos = some .file) :
    entry.takenForDir = false ∧ entry.node.resolvesToDir = some false := by
  have hmatches := container.listed entry hentry
  obtain ⟨name, node, typed, examined, opens⟩ := entry
  cases node with
  | directory => cases hlink.symm.trans hmatches
  | regularFile => cases hlink.symm.trans hmatches
  | other => cases hlink.symm.trans hmatches
  | symlink targetIsDir =>
      obtain ⟨-, htarget⟩ := hmatches
      have hposition : lookup container.tree container.rootDir name = some pos := hpos
      rw [hposition, Option.map_some, hfile] at htarget
      exact ⟨rfl, htarget⟩

def start (baseDir : Path) : Option Bytes → Base
  | none => .fresh baseDir
  | some localtime => withCopy baseDir localtime

section Start

variable {baseDir : Path}

theorem start_base (copy : Option Bytes) :
    (start baseDir copy).mounts.points baseDir = some true := by
  cases copy with
  | none => exact Mounts.fresh_base baseDir
  | some localtime => exact withCopy_base baseDir localtime

theorem start_mounted (copy : Option Bytes) (path : Path) :
    ((start baseDir copy).cell path).mounted = none := by
  cases copy <;> rfl

theorem start_points (copy : Option Bytes) {path : Path} (hne : path ≠ baseDir) :
    ((start baseDir copy).cell path).point ≠ some true := by
  have hfresh : ((Base.fresh baseDir).cell path).point ≠ some true := by
    rw [Base.cell, show (Base.fresh baseDir).mounts.points path = none from Mounts.fresh_other hne]
    exact (Option.some_ne_none true).symm
  cases copy with
  | none => exact hfresh
  | some localtime =>
      by_cases hcopy : path = copyPath baseDir
      · rw [start, hcopy, withCopy_copy]
        exact fun heq => by cases heq
      · rw [start, withCopy_other localtime hcopy]
        exact hfresh

theorem fits_of_mounted {copy : Option Bytes} {base : Base}
    (h : Assembled container.root baseDir (start baseDir copy) base) {path : Path}
    (hmounted : base.mounts.mounted path = some entry) :
    entry ∈ container.root.entries ∧ entry.captured = true ∧
      some entry.takenForDir = entry.node.resolvesToDir := by
  have hcell : (base.cell path).mounted = some entry := hmounted
  by_cases htarget : ∃ entry' ∈ container.root.entries, entry'.captured = true ∧
      path = target baseDir entry'
  · obtain ⟨entry', hentry, hcaptured, rfl⟩ := htarget
    rw [h.cell_own hentry hcaptured, Cell.attach] at hcell
    split at hcell
    · rw [start_mounted] at hcell
      cases hcell
    · split at hcell
      · next hfits =>
          obtain rfl := Option.some.inj hcell
          exact ⟨hentry, hcaptured, hfits⟩
      · rw [start_mounted] at hcell
        cases hcell
  · rw [h.cell_other, start_mounted] at hcell
    · cases hcell
    · exact fun entry' hentry hcaptured heq => htarget ⟨entry', hentry, hcaptured, heq⟩

theorem confined_iff {copy : Option Bytes} {base : Base}
    (h : Assembled container.root baseDir (start baseDir copy) base) :
    container.Confined base ↔ container.LinksInside := by
  constructor
  · intro hconfined entry hentry hcaptured link pos hlink hpos hfile
    obtain ⟨htaken, hresolves⟩ := fits_of_link hentry hlink hpos hfile
    have hpoint : ((start baseDir copy).cell (target baseDir entry)).point ≠ some true :=
      start_points copy (container.root.target_ne_base hentry)
    have hmounted : (base.cell (target baseDir entry)).mounted = some entry := by
      rw [h.cell_own hentry hcaptured, Cell.attach, htaken, hresolves, Bool.not_false,
        if_neg hpoint, if_pos rfl]
    obtain ⟨pos', hpos', hinside⟩ := hconfined _ entry hmounted
    obtain rfl := Option.some.inj (hpos.symm.trans hpos')
    exact hinside
  · intro hlinks path entry hmounted
    obtain ⟨hentry, hcaptured, hfits⟩ := fits_of_mounted h hmounted
    exact inside_of_fits hlinks hentry hcaptured hfits

end Start

/-- Every tree that is attached is rooted in the container if and only if no symlink
that is captured leads to a file outside. -/
theorem captureAndAttach_confined_iff (container : Container) (localtime : Bytes)
    (containerPid : Pid) (ourMountNs : Namespace) (baseDir : Path) (copy : Option Bytes)
    {base : Base} (run : (captureAndAttachContainerTrees containerPid ourMountNs baseDir).Runs
      (holding container.root localtime) (start baseDir copy) (.value ()) base) :
    container.Confined base ↔ container.LinksInside :=
  confined_iff (run.of_wp (captureAndAttach_wp containerPid ourMountNs (start_base copy)) () rfl)

/-- A container whose root directory is the top of its mount namespace has no outside. -/
theorem linksInside_of_top (h : container.rootDir = []) : container.LinksInside := by
  intro entry _ _ link pos _ _ _
  rw [Container.Inside, h]
  exact List.nil_prefix

/-- `etc/localtime`, looked up with the container's root directory as the scope. -/
def Container.localtime (container : Container) : Option (Position Bytes) :=
  container.tree.resolve container.rootDir maxSymlinks container.rootDir
    [.down (ascii "etc"), .down (ascii "localtime")]

/-- The answers of a kernel that opens `etc/localtime` in the root directory, when the
files have these contents. -/
def OpensInRoot (container : Container) (contents : Position Bytes → Bytes) (_ : Log) :
    Event linux → Prop
  | ⟨.readToEnd .localtime, r⟩ =>
      ∀ bytes, r = .ok bytes → ∃ pos, container.localtime = some pos ∧ contents pos = bytes
  | _ => True

/-- Only a file in the container's root directory is copied. -/
def CopiesInside (container : Container) (contents : Position Bytes → Bytes) (_ : Log) :
    Syscall → Prop
  | .writePath _ bytes => ∃ pos, container.Inside pos ∧ contents pos = bytes
  | _ => True

theorem localtime_inside {pos : Position Bytes} (h : container.localtime = some pos) :
    container.Inside pos :=
  FileTree.resolve_inScope List.prefix_rfl h

/-- What `setup_container_timezone` guarantees: wherever the links lead, what it writes
is the content of a file in the container's root directory. -/
theorem setupContainerTimezone_inside (contents : Position Bytes → Bytes) (baseDir : Path)
    {c : Syscall} {log : Log} (issue : (setupContainerTimezone baseDir).Issues
      (recording (OpensInRoot container contents)) [] c log) :
    CopiesInside container contents log c := by
  have hwp : (setupContainerTimezone baseDir).wp (recording (OpensInRoot container contents))
      (CopiesInside container contents) (fun _ _ => True) [] := by
    refine ⟨trivial, ?_⟩
    rintro (e | _) _ -
    · trivial
    refine ⟨trivial, ?_⟩
    rintro (e | bytes) log₁ ⟨-, hread⟩
    · trivial
    obtain ⟨pos, hpos, hbytes⟩ := hread bytes rfl
    refine ⟨⟨pos, localtime_inside hpos, hbytes⟩, ?_⟩
    rintro (e | _) _ -
    · trivial
    · exact ⟨trivial, fun _ _ _ => trivial⟩
  exact issue.of_wp hwp

def usersEntry : Entry := ⟨ascii "users", .symlink (some false), true, true, true⟩

/-- A container in `/srv`, in whose root directory `users` is a link to the `passwd`
next to it. -/
def housed : Container where
  tree := .ofFiles
    [([ascii "srv"], .directory), ([ascii "srv", ascii "etc"], .directory),
      ([ascii "srv", ascii "etc", ascii "passwd"], .file),
      ([ascii "srv", ascii "users"],
        .symlink ⟨false, [.down (ascii "etc"), .down (ascii "passwd")]⟩)] (by decide)
  rootDir := [ascii "srv"]
  isDir := by decide
  root := ⟨[etcEntry, usersEntry], by decide, by decide, by decide⟩
  listed := by
    intro entry hentry
    rcases List.mem_cons.mp hentry with rfl | hentry
    · exact rfl
    · obtain rfl := List.mem_singleton.mp hentry
      exact ⟨⟨_, rfl⟩, by decide⟩

theorem housed_linksInside : housed.LinksInside := by
  intro entry hentry _ link pos hlink hpos _
  rcases List.mem_cons.mp hentry with rfl | hentry
  · have hdirectory : housed.tree.node (housed.rootDir ++ [ascii "etc"]) = some .directory := rfl
    cases hlink.symm.trans hdirectory
  · obtain rfl := List.mem_singleton.mp hentry
    have hposition : housed.position usersEntry =
        some [ascii "srv", ascii "etc", ascii "passwd"] := by decide
    obtain rfl := Option.some.inj (hposition.symm.trans hpos)
    exact List.prefix_append _ [ascii "etc", ascii "passwd"]

/-- The file that the link leads to is attached. -/
theorem captureAndAttach_confined_users :
    ∃ base, (captureAndAttachContainerTrees someTarget ownMountNs tmpfsPath).Runs
        (holding housed.root []) (start tmpfsPath none) (.value ()) base ∧
      base.mounts.mounted (target tmpfsPath usersEntry) = some usersEntry ∧
      housed.position usersEntry = some [ascii "srv", ascii "etc", ascii "passwd"] ∧
      housed.Confined base := by
  have hplay : ((captureAndAttachContainerTrees someTarget ownMountNs tmpfsPath).play
      (Stocked.answer housed.root []) 1 (Stocked.start tmpfsPath)).any (fun r =>
        decide (r.1 = .value () ∧
          r.2.served.mounts.mounted (target tmpfsPath usersEntry) = some usersEntry)) = true := by
    decide +kernel
  obtain ⟨⟨o, stocked⟩, hrun, hend⟩ := (Option.any_eq_true _ _).mp hplay
  obtain ⟨rfl, hmounted⟩ := of_decide_eq_true hend
  exact ⟨stocked.base, Stocked.of_play hrun, hmounted, by decide,
    (captureAndAttach_confined_iff housed [] someTarget ownMountNs tmpfsPath none
      (Stocked.of_play hrun)).mpr housed_linksInside⟩

def shadowEntry : Entry := ⟨ascii "shadow", .symlink (some false), true, true, true⟩

/-- A container in `/srv`, in whose root directory `shadow` is a link to the
`/etc/shadow` of the namespace around it. -/
def jailed : Container where
  tree := .ofFiles
    [([ascii "etc"], .directory), ([ascii "etc", ascii "shadow"], .file),
      ([ascii "srv"], .directory), ([ascii "srv", ascii "etc"], .directory),
      ([ascii "srv", ascii "shadow"],
        .symlink ⟨true, [.down (ascii "etc"), .down (ascii "shadow")]⟩)] (by decide)
  rootDir := [ascii "srv"]
  isDir := by decide
  root := ⟨[etcEntry, shadowEntry], by decide, by decide, by decide⟩
  listed := by
    intro entry hentry
    rcases List.mem_cons.mp hentry with rfl | hentry
    · exact rfl
    · obtain rfl := List.mem_singleton.mp hentry
      exact ⟨⟨_, rfl⟩, by decide⟩

/-- The link is followed out of the container. -/
theorem captureAndAttach_escapes :
    ∃ base, (captureAndAttachContainerTrees someTarget ownMountNs tmpfsPath).Runs
        (holding jailed.root []) (start tmpfsPath none) (.value ()) base ∧
      base.mounts.mounted (target tmpfsPath shadowEntry) = some shadowEntry ∧
      jailed.position shadowEntry = some [ascii "etc", ascii "shadow"] ∧
      ¬jailed.Confined base := by
  have hplay : ((captureAndAttachContainerTrees someTarget ownMountNs tmpfsPath).play
      (Stocked.answer jailed.root []) 1 (Stocked.start tmpfsPath)).any (fun r =>
        decide (r.1 = .value () ∧
          r.2.served.mounts.mounted (target tmpfsPath shadowEntry) = some shadowEntry)) = true := by
    decide +kernel
  obtain ⟨⟨o, stocked⟩, hrun, hend⟩ := (Option.any_eq_true _ _).mp hplay
  obtain ⟨rfl, hmounted⟩ := of_decide_eq_true hend
  have hposition : jailed.position shadowEntry = some [ascii "etc", ascii "shadow"] := by decide
  refine ⟨stocked.base, Stocked.of_play hrun, hmounted, hposition, fun hconfined => ?_⟩
  obtain ⟨pos, hpos, hinside⟩ := hconfined _ shadowEntry hmounted
  obtain rfl := Option.some.inj (hposition.symm.trans hpos)
  have houtside : ¬[ascii "srv"] <+: [ascii "etc", ascii "shadow"] := by decide
  exact houtside hinside

end Cntr.LinkTargets
