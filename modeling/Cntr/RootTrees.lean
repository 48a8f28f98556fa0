import Cntr.AttachChild
import Mathlib.Data.List.Nodup
import Mathlib.Data.List.Perm.Basic

/-!
Where `attach` mounts the trees that it takes from the root directory of the
container.
-/

namespace Cntr.RootTrees

open Cntr.ByteText
open Cntr.CallTree
open Cntr.SystemCalls
open Cntr.AttachChild
open Cntr.NamespaceFiles

/-- What a name stands for; a symlink with what it resolves to, if anything: a
directory or something else. -/
inductive Node where
  | directory
  | regularFile
  | other
  | symlink (targetIsDir : Option Bool)
  deriving DecidableEq

namespace Node

def fileType : Node → FileType
  | directory => .directory
  | regularFile => .regularFile
  | other => .other
  | symlink _ => .symlink

/-- Whether the root of a tree that is opened by the name is a directory. -/
def resolvesToDir : Node → Option Bool
  | directory => some true
  | regularFile | other => some false
  | symlink targetIsDir => targetIsDir

end Node

/-- An entry of a root directory: whether its type is listed, whether it can be
examined, and whether a tree can be opened at what it resolves to. -/
structure Entry where
  name : Bytes
  node : Node
  typed : Bool
  examined : Bool
  opens : Bool
  deriving DecidableEq

namespace Entry

def dirEntry (entry : Entry) : DirEntry where
  fileName := entry.name
  fileType := if entry.typed then entry.node.fileType else .unknown

def captured (entry : Entry) : Bool := entry.opens && entry.node.resolvesToDir.isSome

/-- What the program takes an entry for. -/
def takenForDir (entry : Entry) : Bool :=
  entry.node = .directory && (entry.typed || entry.examined)

end Entry

structure RootDirectory where
  entries : List Entry
  nodup : (entries.map Entry.name).Nodup
  named : ∀ entry ∈ entries, entry.name ≠ [] ∧ slash ∉ entry.name
  proper : ∀ entry ∈ entries, entry.name ≠ ascii "." ∧ entry.name ≠ ascii ".."

/-- A listing has every entry once, and perhaps the directory and its parent;
what cannot be read is not in the directory. -/
def RootDirectory.Listed (root : RootDirectory) (listing : List (Except Errno DirEntry)) : Prop :=
  ∃ dots : List DirEntry, (∀ dot ∈ dots, dot.fileName = ascii "." ∨ dot.fileName = ascii "..") ∧
    (listing.filterMap Except.toOption).Perm (dots ++ root.entries.map Entry.dirEntry)

/-- The trees that are open, whether there is a directory or a file at a path, and
the trees that are mounted. -/
structure Mounts where
  trees : Fd → Option Entry
  points : Path → Option Bool
  mounted : Path → Option Entry

namespace Mounts

/-- Only an empty tmpfs at `baseDir`. -/
def fresh (baseDir : Path) : Mounts where
  trees := fun _ => none
  points := Function.update (fun _ => none) baseDir (some true)
  mounted := fun _ => none

theorem fresh_base (baseDir : Path) : (fresh baseDir).points baseDir = some true := by
  simp [fresh]

theorem fresh_other {baseDir path : Path} (hne : path ≠ baseDir) :
    (fresh baseDir).points path = none := by
  simp [fresh, hne]

def openTree (mounts : Mounts) (fd : Fd) (entry : Entry) : Mounts :=
  { mounts with trees := Function.update mounts.trees fd (some entry) }

def closeTree (mounts : Mounts) (fd : Fd) : Mounts :=
  { mounts with trees := Function.update mounts.trees fd none }

def create (mounts : Mounts) (path : Path) (isDir : Bool) : Mounts :=
  { mounts with points := Function.update mounts.points path (some isDir) }

def mount (mounts : Mounts) (path : Path) (entry : Entry) : Mounts :=
  { mounts with mounted := Function.update mounts.mounted path (some entry) }

/-- A directory goes on a directory, and anything else on anything else. -/
def Fits (mounts : Mounts) (fd : Fd) (path : Path) (entry : Entry) : Prop :=
  mounts.trees fd = some entry ∧ mounts.points path ≠ none ∧
    mounts.points path = entry.node.resolvesToDir

end Mounts

/-- How the kernel treats the calls that look at the root directory of the
container and those that mount its entries. -/
def mounting (root : RootDirectory) : Kernel linux Mounts
  | mounts, .readContainerRoot, .ok listing, mounts' => root.Listed listing ∧ mounts' = mounts
  | mounts, .statIsDirectory name, r, mounts' =>
      (∀ entry ∈ root.entries, entry.name = name →
        r.toOption = if entry.examined then some (decide (entry.node = .directory)) else none) ∧
      mounts' = mounts
  | mounts, .openTree .containerRoot name, .ok fd, mounts' =>
      ∃ entry ∈ root.entries, entry.name = name ∧ entry.captured = true ∧
        mounts.trees fd = none ∧ mounts' = mounts.openTree fd entry
  | mounts, .openTree .containerRoot name, .error _, mounts' =>
      (∀ entry ∈ root.entries, entry.name = name → entry.captured = false) ∧ mounts' = mounts
  | mounts, .createDirAll path, .ok _, mounts' =>
      mounts.points path ≠ some false ∧ mounts' = mounts.create path true
  | mounts, .createDirAll path, .error _, mounts' =>
      mounts.points path = some false ∧ mounts' = mounts
  | mounts, .openFile path .create, .ok _, mounts' =>
      mounts.points path ≠ some true ∧ mounts' = mounts.create path false
  | mounts, .openFile path .create, .error _, mounts' =>
      mounts.points path = some true ∧ mounts' = mounts
  | mounts, .moveMount fd path, .ok _, mounts' =>
      ∃ entry, mounts.Fits fd path entry ∧ mounts' = mounts.mount path entry
  | mounts, .moveMount fd path, .error _, mounts' =>
      (∀ entry, ¬mounts.Fits fd path entry) ∧ mounts' = mounts
  | mounts, .closeFd fd, _, mounts' => mounts' = mounts.closeTree fd
  | mounts, _, _, mounts' => mounts' = mounts

section Targets

variable {baseDir : Path} {name name' : Bytes}

/-- What `pushPath` puts in front of a relative path. -/
def asParent (baseDir : Path) : Path :=
  if baseDir.getLast?.any (· != slash) then baseDir ++ [slash] else baseDir

theorem pushPath_name (hname : slash ∉ name) :
    pushPath baseDir name = asParent baseDir ++ name := by
  have hrelative : name.head? ≠ some slash := fun hhead => hname (List.mem_of_head? hhead)
  rw [pushPath, if_neg hrelative, asParent]
  split
  · rw [List.append_assoc]
    rfl
  · rfl

theorem pushPath_ne_base (hname : slash ∉ name) (hne : name ≠ []) :
    pushPath baseDir name ≠ baseDir := by
  intro heq
  have hlength := congrArg List.length heq
  have hpos := List.length_pos_iff.mpr hne
  rw [pushPath_name hname, List.length_append, asParent] at hlength
  split at hlength
  · rw [List.length_append] at hlength
    omega
  · omega

theorem pushPath_inj (hname : slash ∉ name) (hname' : slash ∉ name')
    (h : pushPath baseDir name = pushPath baseDir name') : name = name' := by
  rw [pushPath_name hname, pushPath_name hname'] at h
  exact List.append_cancel_left h

end Targets

/-- An open tree, as the program remembers it. -/
structure Held (mounts : Mounts) (entry : Entry) (captured : CapturedTree) : Prop where
  name : captured.name = entry.name
  isDir : captured.isDir = entry.takenForDir
  tree : mounts.trees captured.tree = some entry

/-- What is left of the entries once their trees are opened. -/
structure Opened (start : Mounts) (entries : List Entry) (captured : List CapturedTree)
    (mounts : Mounts) : Prop where
  held : List.Forall₂ (Held mounts) (entries.filter Entry.captured) captured
  nodup : (captured.map CapturedTree.tree).Nodup
  unused : ∀ tree ∈ captured, start.trees tree.tree = none
  kept : ∀ fd, start.trees fd ≠ none → mounts.trees fd = start.trees fd
  points : mounts.points = start.points
  mounted : mounts.mounted = start.mounted

section Capture

variable {root : RootDirectory}

theorem RootDirectory.eq_of_name {entry entry' : Entry} (h : entry ∈ root.entries)
    (h' : entry' ∈ root.entries) (hname : entry.name = entry'.name) : entry = entry' :=
  List.inj_on_of_nodup_map root.nodup h h' hname

theorem entryIsDir_wp {entry : Entry} (hentry : entry ∈ root.entries) (mounts : Mounts) :
    (entryIsDir entry.dirEntry).wp (mounting root) (fun _ _ => True)
      (fun o mounts' => o = .value entry.takenForDir ∧ mounts' = mounts) mounts := by
  obtain ⟨name, node, typed, examined, opens⟩ := entry
  cases typed with
  | true =>
      cases node with
      | _ => exact ⟨rfl, rfl⟩
  | false =>
      refine ⟨trivial, fun r mounts' answer => ?_⟩
      have hr := answer.1 _ hentry rfl
      cases examined with
      | true =>
          rcases r with e | isDir
          · cases hr
          · obtain rfl : isDir = decide (node = .directory) := Option.some.inj hr
            exact ⟨by simp [Entry.takenForDir], answer.2⟩
      | false =>
          rcases r with e | isDir
          · exact ⟨by simp [Entry.takenForDir], answer.2⟩
          · cases hr

theorem Opened.nil (start : Mounts) : Opened start [] [] start where
  held := .nil
  nodup := List.nodup_nil
  unused := fun _ h => by cases h
  kept := fun _ _ => rfl
  points := rfl
  mounted := rfl

theorem Opened.cons {start mounts : Mounts} {entry : Entry} {entries : List Entry} {fd : Fd}
    {captured : List CapturedTree} (hcaptured : entry.captured = true)
    (hunused : start.trees fd = none)
    (h : Opened (start.openTree fd entry) entries captured mounts) :
    Opened start (entry :: entries) (⟨entry.name, fd, entry.takenForDir⟩ :: captured) mounts := by
  have hopen : (start.openTree fd entry).trees fd = some entry := Function.update_self _ _ _
  have hother : ∀ fd', fd' ≠ fd → (start.openTree fd entry).trees fd' = start.trees fd' :=
    fun fd' hne => Function.update_of_ne hne _ _
  have hne : ∀ tree ∈ captured, tree.tree ≠ fd := by
    intro tree htree heq
    have := h.unused tree htree
    rw [heq, hopen] at this
    cases this
  constructor
  · rw [List.filter_cons_of_pos hcaptured]
    refine .cons ⟨rfl, rfl, ?_⟩ h.held
    rw [h.kept fd (by rw [hopen]; exact Option.some_ne_none _), hopen]
  · refine List.nodup_cons.mpr ⟨fun hmem => ?_, h.nodup⟩
    obtain ⟨tree, htree, heq⟩ := List.mem_map.mp hmem
    exact hne tree htree heq
  · intro tree htree
    rcases List.mem_cons.mp htree with rfl | htree
    · exact hunused
    · rw [← hother _ (hne tree htree)]
      exact h.unused tree htree
  · intro fd' hfd'
    have hne' : fd' ≠ fd := by
      rintro rfl
      exact hfd' hunused
    rw [h.kept fd' (by rwa [hother fd' hne']), hother fd' hne']
  · exact h.points
  · exact h.mounted

theorem captureTrees_wp {entries : List Entry} (hentries : ∀ entry ∈ entries, entry ∈ root.entries)
    (start : Mounts) :
    (captureTrees (entries.map Entry.dirEntry)).wp (mounting root) (fun _ _ => True)
      (fun o mounts => ∃ captured, o = .value captured ∧ Opened start entries captured mounts)
      start := by
  induction entries generalizing start with
  | nil => exact ⟨[], rfl, .nil start⟩
  | cons entry entries ih =>
      have hentry := hentries entry List.mem_cons_self
      have hrest : ∀ entry' ∈ entries, entry' ∈ root.entries := fun entry' h =>
        hentries entry' (List.mem_cons_of_mem _ h)
      rw [List.map_cons, captureTrees, Program.bind_eq]
      refine Program.wp_seq (entryIsDir_wp hentry start) fun o mounts ho => ?_
      obtain ⟨rfl, rfl⟩ := ho
      refine ⟨trivial, ?_⟩
      rintro (e | fd) mounts' answer
      · obtain ⟨hnone, rfl⟩ := answer
        have hcaptured := hnone entry hentry rfl
        refine Program.wp_post (ih hrest _) fun o mounts ho => ?_
        obtain ⟨captured, rfl, h⟩ := ho
        refine ⟨captured, rfl, ?_⟩
        exact { h with held := by rw [List.filter_cons_of_neg (by simp [hcaptured])]; exact h.held }
      · obtain ⟨entry', hentry', hname, hcaptured, hunused, rfl⟩ := answer
        obtain rfl := root.eq_of_name hentry' hentry hname
        show ((captureTrees (entries.map Entry.dirEntry)).bind _).wp _ _ _ _
        refine Program.wp_seq (ih hrest _) fun o mounts ho => ?_
        obtain ⟨captured, rfl, h⟩ := ho
        exact ⟨_, rfl, h.cons hcaptured hunused⟩

end Capture

def target (baseDir : Path) (entry : Entry) : Path := pushPath baseDir entry.name

/-- The tree of an entry is mounted, at a mount point of its own type. -/
def Attached (baseDir : Path) (entry : Entry) (mounts : Mounts) : Prop :=
  mounts.mounted (target baseDir entry) = some entry ∧
    mounts.points (target baseDir entry) = entry.node.resolvesToDir

/-- What is left of an entry once its tree is closed. -/
structure Tried (baseDir : Path) (entry : Entry) (tree : Fd) (start mounts : Mounts) : Prop where
  trees : ∀ fd, fd ≠ tree → mounts.trees fd = start.trees fd
  points : ∀ path, path ≠ target baseDir entry → mounts.points path = start.points path
  mounted : ∀ path, path ≠ target baseDir entry → mounts.mounted path = start.mounted path
  attached : Attached baseDir entry mounts ↔ some entry.takenForDir = entry.node.resolvesToDir

section Attach

variable {root : RootDirectory} {baseDir : Path} {entry : Entry} {start : Mounts}

theorem createMountPoint_wp (hbase : start.points baseDir = some true)
    (hnone : start.points (target baseDir entry) = none) (isDir : Bool) :
    (createMountPoint baseDir (target baseDir entry) isDir).wp (mounting root)
      (fun _ _ => True) (fun o mounts => o = .value true ∧
        mounts = start.create (target baseDir entry) isDir) start := by
  cases isDir with
  | true =>
      refine ⟨trivial, ?_⟩
      rintro (e | _) mounts answer
      · cases hnone.symm.trans answer.1
      · exact ⟨rfl, answer.2⟩
  | false =>
      have hsame : start.create baseDir true = start := by
        rw [Mounts.create, ← hbase, Function.update_eq_self]
      refine ⟨trivial, ?_⟩
      rintro (e | _) mounts answer
      · cases hbase.symm.trans answer.1
      · obtain ⟨-, rfl⟩ := answer
        rw [hsame]
        refine ⟨trivial, ?_⟩
        rintro (e | _) mounts answer
        · cases hnone.symm.trans answer.1
        · exact ⟨rfl, answer.2⟩

theorem attachCaptured_wp {captured : CapturedTree} (hheld : Held start entry captured)
    (hbase : start.points baseDir = some true)
    (hnone : start.points (target baseDir entry) = none)
    (hfree : start.mounted (target baseDir entry) = none) :
    (attachCaptured baseDir captured).wp (mounting root) (fun _ _ => True)
      (fun o mounts => o = .value () ∧ Tried baseDir entry captured.tree start mounts) start := by
  have htarget : pushPath baseDir captured.name = target baseDir entry := by
    rw [hheld.name, target]
  rw [attachCaptured, htarget, hheld.isDir, Program.bind_eq]
  refine Program.wp_seq (createMountPoint_wp hbase hnone _) fun o mounts ho => ?_
  obtain ⟨rfl, rfl⟩ := ho
  have hpoint : (start.create (target baseDir entry) entry.takenForDir).points
      (target baseDir entry) = some entry.takenForDir := Function.update_self _ _ _
  refine ⟨trivial, ?_⟩
  rintro (e | _) mounts answer
  · obtain ⟨hmisfit, rfl⟩ := answer
    refine ⟨trivial, fun _ mounts answer => ⟨rfl, ?_⟩⟩
    obtain rfl : mounts = Mounts.closeTree _ captured.tree := answer
    refine ⟨fun fd hne => Function.update_of_ne hne _ _, fun path hne =>
      Function.update_of_ne hne _ _, fun path _ => rfl, ?_⟩
    constructor
    · rintro ⟨hmounted, -⟩
      cases hfree.symm.trans hmounted
    · intro hfits
      refine absurd ⟨hheld.tree, ?_, ?_⟩ (hmisfit entry)
      · rw [hpoint]
        exact Option.some_ne_none _
      · rw [hpoint, hfits]
  · obtain ⟨entry', ⟨htree, -, hfits⟩, rfl⟩ := answer
    obtain rfl : entry' = entry := Option.some.inj (htree.symm.trans hheld.tree)
    rw [hpoint] at hfits
    refine ⟨trivial, fun _ mounts answer => ⟨rfl, ?_⟩⟩
    obtain rfl : mounts = Mounts.closeTree _ captured.tree := answer
    refine ⟨fun fd hne => Function.update_of_ne hne _ _, fun path hne =>
      Function.update_of_ne hne _ _, fun path hne => Function.update_of_ne hne _ _, ?_⟩
    refine ⟨fun _ => hfits, fun _ => ⟨Function.update_self _ _ _, ?_⟩⟩
    exact hpoint.trans hfits

/-- What is known between two rounds of the loop that attaches the trees. -/
structure Attaching (root : RootDirectory) (baseDir : Path) (all : List Entry)
    (captured : List CapturedTree) (mounts : Mounts) : Prop where
  split : ∃ before after, all = before ++ after ∧
    List.Forall₂ (Held mounts) after captured ∧
    (∀ entry ∈ before, Attached baseDir entry mounts ↔
      some entry.takenForDir = entry.node.resolvesToDir) ∧
    ∀ entry ∈ after, mounts.points (target baseDir entry) = none ∧
      mounts.mounted (target baseDir entry) = none
  nodup : (captured.map CapturedTree.tree).Nodup
  base : mounts.points baseDir = some true

theorem RootDirectory.target_ne_base (hentry : entry ∈ root.entries) :
    target baseDir entry ≠ baseDir :=
  pushPath_ne_base (root.named entry hentry).2 (root.named entry hentry).1

theorem RootDirectory.target_inj {entry' : Entry} (hentry : entry ∈ root.entries)
    (hentry' : entry' ∈ root.entries) (h : target baseDir entry = target baseDir entry') :
    entry = entry' :=
  root.eq_of_name hentry hentry'
    (pushPath_inj (root.named entry hentry).2 (root.named entry' hentry').2 h)

theorem held_of_trees {mounts : Mounts} {entries : List Entry} {captured : List CapturedTree}
    (h : List.Forall₂ (Held start) entries captured)
    (htrees : ∀ tree ∈ captured, mounts.trees tree.tree = start.trees tree.tree) :
    List.Forall₂ (Held mounts) entries captured := by
  induction h with
  | nil => exact .nil
  | cons hfirst _ ih =>
      refine .cons ⟨hfirst.name, hfirst.isDir, ?_⟩ (ih fun tree hmem => ?_)
      · rw [htrees _ List.mem_cons_self, hfirst.tree]
      · exact htrees tree (List.mem_cons_of_mem _ hmem)

theorem Attaching.step {all : List Entry} {captured : CapturedTree}
    {rest : List CapturedTree} (hall : ∀ entry ∈ all, entry ∈ root.entries) (hnodup : all.Nodup)
    (h : Attaching root baseDir all (captured :: rest) start) :
    (attachCaptured baseDir captured).wp (mounting root) (fun _ _ => True)
      (fun o mounts => o = .value () ∧ Attaching root baseDir all rest mounts) start := by
  obtain ⟨⟨before, after, rfl, hheld, hbefore, hafter⟩, htrees, hbase⟩ := h
  obtain ⟨entry, after, hfirst, hrest, rfl⟩ := List.forall₂_cons_right_iff.mp hheld
  obtain ⟨hfresh, htrees⟩ := List.nodup_cons.mp htrees
  have hentry : entry ∈ root.entries := hall entry (by simp)
  have hnone := hafter entry List.mem_cons_self
  have hdistinct : ∀ entry' ∈ before ++ after, target baseDir entry' ≠ target baseDir entry := by
    intro entry' hmem heq
    have hentry' : entry' ∈ root.entries := by
      apply hall
      rcases List.mem_append.mp hmem with hmem | hmem <;> simp [hmem]
    obtain rfl := root.target_inj hentry' hentry heq
    exact (List.nodup_middle.mp hnodup).notMem hmem
  refine Program.wp_post (attachCaptured_wp hfirst hbase hnone.1 hnone.2) fun o mounts ho => ?_
  obtain ⟨rfl, htried⟩ := ho
  refine ⟨rfl, ⟨before ++ [entry], after, by simp, ?_, ?_, ?_⟩, htrees, ?_⟩
  · refine held_of_trees hrest fun captured' hmem => htried.trees _ fun heq => ?_
    exact hfresh (List.mem_map.mpr ⟨captured', hmem, heq⟩)
  · intro entry' hmem
    rcases List.mem_append.mp hmem with hmem | hmem
    · have hne := hdistinct entry' (List.mem_append_left _ hmem)
      rw [← hbefore entry' hmem, Attached, htried.points _ hne, htried.mounted _ hne, Attached]
    · obtain rfl := List.mem_singleton.mp hmem
      exact htried.attached
  · intro entry' hmem
    have hne := hdistinct entry' (List.mem_append_right _ hmem)
    rw [htried.points _ hne, htried.mounted _ hne]
    exact hafter entry' (List.mem_cons_of_mem _ hmem)
  · rw [htried.points _ (root.target_ne_base hentry).symm, hbase]

theorem attachAll_wp {entries : List Entry} {captured : List CapturedTree} {mounts : Mounts}
    (hentries : ∀ entry ∈ entries, entry ∈ root.entries) (hnodup : entries.Nodup)
    (h : Opened (.fresh baseDir) entries captured mounts) :
    (Program.forEach (attachCaptured baseDir) captured).wp (mounting root) (fun _ _ => True)
      (fun o mounts' => o = .value () → ∀ entry ∈ entries, entry.captured = true →
        (Attached baseDir entry mounts' ↔ some entry.takenForDir = entry.node.resolvesToDir))
      mounts := by
  have hall : ∀ entry ∈ entries.filter Entry.captured, entry ∈ root.entries := fun entry hmem =>
    hentries entry (List.mem_of_mem_filter hmem)
  refine Program.wp_forEach (Attaching root baseDir (entries.filter Entry.captured))
    (fun captured rest mounts' hloop => ?_) (fun mounts' hloop _ entry hmem hcaptured => ?_) ?_
  · refine Program.wp_post (hloop.step hall (hnodup.filter _)) fun o mounts'' ho => ?_
    obtain ⟨rfl, hloop⟩ := ho
    exact hloop
  · obtain ⟨⟨before, after, hsplit, hheld, hbefore, -⟩, -, -⟩ := hloop
    obtain rfl := List.forall₂_nil_right_iff.mp hheld
    rw [List.append_nil] at hsplit
    exact hbefore entry (hsplit ▸ List.mem_filter.mpr ⟨hmem, hcaptured⟩)
  · refine ⟨⟨[], _, rfl, h.held, fun _ hmem => (by cases hmem), fun entry hmem => ?_⟩, h.nodup, ?_⟩
    · rw [h.points, h.mounted]
      exact ⟨Mounts.fresh_other (root.target_ne_base (hall entry hmem)), rfl⟩
    · rw [h.points, Mounts.fresh_base]

theorem rootEntries_of_listed {listing : List (Except Errno DirEntry)}
    (h : root.Listed listing) : ∃ entries : List Entry, entries.Perm root.entries ∧
      rootEntries listing = entries.map Entry.dirEntry := by
  obtain ⟨dots, hdots, hperm⟩ := h
  have hfilter := hperm.filter fun entry : DirEntry =>
    entry.fileName ≠ ascii "." ∧ entry.fileName ≠ ascii ".."
  have hnone : dots.filter (fun entry : DirEntry =>
      entry.fileName ≠ ascii "." ∧ entry.fileName ≠ ascii "..") = [] := by
    refine List.filter_eq_nil_iff.mpr fun dot hdot hproper => ?_
    have hproper := of_decide_eq_true hproper
    rcases hdots dot hdot with hname | hname
    · exact hproper.1 hname
    · exact hproper.2 hname
  have hall : (root.entries.map Entry.dirEntry).filter (fun entry : DirEntry =>
      entry.fileName ≠ ascii "." ∧ entry.fileName ≠ ascii "..") =
      root.entries.map Entry.dirEntry := by
    refine List.filter_eq_self.mpr fun dirEntry hmem => ?_
    obtain ⟨entry, hentry, rfl⟩ := List.mem_map.mp hmem
    exact decide_eq_true (root.proper entry hentry)
  rw [List.filter_append, hnone, hall, List.nil_append] at hfilter
  obtain ⟨entries, heq, hentries⟩ :=
    (iff_of_eq (congrFun₂ (List.eq_map_comp_perm Entry.dirEntry) _ _)).mpr hfilter
  exact ⟨entries, hentries, heq⟩

/-- The calls that have nothing to do with the mounts. -/
def Elsewhere : Syscall → Prop
  | .getenv _ | .openNamespace _ _ _ | .setns _ _ => True
  | _ => False

theorem openKind_elsewhere (kind : Kind) (pid : Pid) :
    (openKind kind pid).Within Elsewhere fun _ => True := by
  refine Program.Within.bind ⟨trivial, ?_⟩ fun _ => .check trivial fun _ => trivial
  rintro (_ | path) <;> trivial

theorem apply_elsewhere (ns : Namespace) : ns.apply.Within Elsewhere fun _ => True :=
  ⟨trivial, fun r => (Program.within_ofExcept _ r).mpr trivial⟩

theorem elsewhere_wp {ε α : Type} {p : Sys ε α} (hp : p.Within Elsewhere fun _ => True)
    (mounts : Mounts) :
    p.wp (mounting root) (fun _ _ => True) (fun _ mounts' => mounts' = mounts) mounts := by
  have hcall : ∀ s c r t, s = mounts → Elsewhere c → mounting root s c r t → t = mounts := by
    rintro s c r t rfl hc answer
    cases c <;> first | exact hc.elim | exact answer
  exact Program.wp_post (hp.wp (I := (· = mounts)) (fun _ _ _ _ => trivial) hcall rfl)
    fun _ _ h => h.1

theorem elsewhere_bind {ε α β : Type} {p : Sys ε α} (hp : p.Within Elsewhere fun _ => True)
    {f : α → Sys ε β} {Q : Outcome Halt ε β → Mounts → Prop} {mounts : Mounts}
    (hfails : ∀ o mounts, (∀ b, o ≠ .value b) → Q o mounts)
    (hf : ∀ a, (f a).wp (mounting root) (fun _ _ => True) Q mounts) :
    (p.bind f).wp (mounting root) (fun _ _ => True) Q mounts :=
  Program.wp_bind_same (elsewhere_wp hp mounts) (fun o => hfails o mounts) hf

theorem captureAndAttach_wp (containerPid : Pid) (ourMountNs : Namespace) (baseDir : Path) :
    (captureAndAttachContainerTrees containerPid ourMountNs baseDir).wp (mounting root)
      (fun _ _ => True) (fun o mounts => o = .value () → ∀ entry ∈ root.entries,
        entry.captured = true → (Attached baseDir entry mounts ↔
          some entry.takenForDir = entry.node.resolvesToDir)) (.fresh baseDir) := by
  have hfails : ∀ (o : Outcome Halt AttachError Unit) (mounts : Mounts), (∀ b, o ≠ .value b) →
      o = .value () → ∀ entry ∈ root.entries, entry.captured = true →
        (Attached baseDir entry mounts ↔ some entry.takenForDir = entry.node.resolvesToDir) :=
    fun o _ hnot heq => absurd heq (hnot ())
  refine elsewhere_bind (openKind_elsewhere _ _).mapError hfails fun containerMountNs => ?_
  refine elsewhere_bind (apply_elsewhere _).mapError hfails fun _ => ⟨trivial, ?_⟩
  rintro (e | listing) mounts answer
  · exact hfails _ _ fun b heq => by cases heq
  obtain ⟨hlisted, rfl⟩ := answer
  obtain ⟨entries, hperm, heq⟩ := rootEntries_of_listed hlisted
  have hentries : ∀ entry ∈ entries, entry ∈ root.entries := fun entry => hperm.mem_iff.mp
  show ((captureTrees (rootEntries listing)).bind _).wp _ _ _ _
  rw [heq]
  refine Program.wp_seq (captureTrees_wp hentries _) fun o mounts ho => ?_
  obtain ⟨captured, rfl, hopened⟩ := ho
  refine elsewhere_bind (apply_elsewhere _).mapError hfails fun _ => ?_
  have hnodup : entries.Nodup := hperm.nodup_iff.mpr (List.Nodup.of_map _ root.nodup)
  refine Program.wp_post (attachAll_wp hentries hnodup hopened) fun o mounts ho heq entry hmem => ?_
  exact ho heq entry (hperm.mem_iff.mpr hmem)

/-- Every tree that is captured is attached if and only if no captured entry is a
symlink to a directory, or a directory that is neither listed as one nor examined. -/
theorem captureAndAttach_attaches_iff (root : RootDirectory) (containerPid : Pid)
    (ourMountNs : Namespace) (baseDir : Path) {mounts : Mounts}
    (run : (captureAndAttachContainerTrees containerPid ourMountNs baseDir).Runs (mounting root)
      (.fresh baseDir) (.value ()) mounts) :
    (∀ entry ∈ root.entries, entry.captured = true → Attached baseDir entry mounts) ↔
      ∀ entry ∈ root.entries, entry.captured = true → entry.node ≠ .symlink (some true) ∧
        (entry.node = .directory → entry.typed = true ∨ entry.examined = true) := by
  have hends := run.of_wp (captureAndAttach_wp containerPid ourMountNs baseDir) rfl
  refine forall₂_congr fun entry hmem => forall_congr' fun hcaptured => ?_
  rw [hends entry hmem hcaptured]
  obtain ⟨name, node, typed, examined, opens⟩ := entry
  cases node with
  | directory => simp [Entry.takenForDir, Node.resolvesToDir]
  | regularFile => simp [Entry.takenForDir, Node.resolvesToDir]
  | other => simp [Entry.takenForDir, Node.resolvesToDir]
  | symlink targetIsDir =>
      rcases targetIsDir with _ | _ | _
      · simp [Entry.captured, Node.resolvesToDir] at hcaptured
      · simp [Entry.takenForDir, Node.resolvesToDir]
      · simp [Entry.takenForDir, Node.resolvesToDir]

end Attach

/-- A state in which only descriptors below `next` are in use. -/
structure Served where
  mounts : Mounts
  next : Fd
  unused : ∀ fd, next ≤ fd → mounts.trees fd = none

namespace Served

def openTree (served : Served) (entry : Entry) : Served where
  mounts := served.mounts.openTree served.next entry
  next := served.next + 1
  unused := by
    intro fd hfd
    have hlt : served.next < fd := hfd
    exact (Function.update_of_ne (Nat.ne_of_gt hlt) _ _).trans
      (served.unused fd (Nat.le_of_lt hlt))

def closeTree (served : Served) (fd : Fd) : Served where
  mounts := served.mounts.closeTree fd
  next := served.next
  unused := by
    intro fd' hfd'
    by_cases heq : fd' = fd
    · rw [heq]
      exact Function.update_self _ _ _
    · exact (Function.update_of_ne heq _ _).trans (served.unused fd' hfd')

def create (served : Served) (path : Path) (isDir : Bool) : Served :=
  ⟨served.mounts.create path isDir, served.next, served.unused⟩

def mount (served : Served) (path : Path) (entry : Entry) : Served :=
  ⟨served.mounts.mount path entry, served.next, served.unused⟩

/-- A kernel on which whatever may succeed does. -/
def answer (root : RootDirectory) (served : Served) : (c : Syscall) → c.Answer × Served
  | .readContainerRoot => (.ok (root.entries.map fun entry => .ok entry.dirEntry), served)
  | .statIsDirectory name =>
      match root.entries.find? (·.name = name) with
      | some entry =>
          (if entry.examined then .ok (entry.node = .directory) else .error .perm, served)
      | none => (.error .perm, served)
  | .openTree .containerRoot name =>
      match root.entries.find? fun entry => entry.name = name ∧ entry.captured = true with
      | some entry => (.ok served.next, served.openTree entry)
      | none => (.error .perm, served)
  | .createDirAll path =>
      if served.mounts.points path = some false then (.error (.os .perm), served)
      else (.ok (), served.create path true)
  | .openFile path .create =>
      if served.mounts.points path = some true then (.error (.os .perm), served)
      else (.ok (), served.create path false)
  | .moveMount fd path =>
      match served.mounts.trees fd with
      | some entry =>
          if served.mounts.points path ≠ none ∧
              served.mounts.points path = entry.node.resolvesToDir then
            (.ok (), served.mount path entry)
          else (.error .perm, served)
      | none => (.error .perm, served)
  | .closeFd fd => ((), served.closeTree fd)
  | .openNamespace _ _ _ => (.ok 1, served)
  | .setns _ _ => (.ok (), served)
  | c => (c.refused, served)

theorem mounting_answer (root : RootDirectory) (served : Served) (c : Syscall) :
    mounting root served.mounts c (served.answer root c).1 (served.answer root c).2.mounts := by
  cases c with
  | readContainerRoot =>
      refine ⟨⟨[], fun _ h => (by cases h), ?_⟩, rfl⟩
      rw [List.filterMap_map]
      exact .of_eq (List.filterMap_eq_map' ▸ rfl)
  | statIsDirectory name =>
      rw [answer]
      split
      · next entry hfind =>
          refine ⟨fun entry' hmem hname => ?_, rfl⟩
          have hname' : entry.name = name := by simpa using List.find?_some hfind
          obtain rfl := root.eq_of_name hmem (List.mem_of_find?_eq_some hfind)
            (hname.trans hname'.symm)
          cases entry'.examined <;> rfl
      · next hfind =>
          refine ⟨fun entry hmem hname => ?_, rfl⟩
          exact absurd (decide_eq_true hname) (List.find?_eq_none.mp hfind entry hmem)
  | openTree base name =>
      cases base with
      | cwd => exact rfl
      | containerRoot =>
          rw [answer]
          split
          · next entry hfind =>
              obtain ⟨hname, hcaptured⟩ : entry.name = name ∧ entry.captured = true := by
                simpa using List.find?_some hfind
              exact ⟨entry, List.mem_of_find?_eq_some hfind, hname, hcaptured,
                served.unused _ (Nat.le_refl _), rfl⟩
          · next hfind =>
              refine ⟨fun entry hmem hname => ?_, rfl⟩
              have hnot := List.find?_eq_none.mp hfind entry hmem
              rw [decide_eq_true_eq, not_and] at hnot
              exact (Bool.not_eq_true _).mp (hnot hname)
  | createDirAll path =>
      rw [answer]
      split
      · next h => exact ⟨h, rfl⟩
      · next h => exact ⟨h, rfl⟩
  | openFile path mode =>
      cases mode with
      | create =>
          rw [answer]
          split
          · next h => exact ⟨h, rfl⟩
          · next h => exact ⟨h, rfl⟩
      | _ => exact rfl
  | moveMount fd path =>
      rw [answer]
      split
      · next entry htree =>
          split
          · next h => exact ⟨entry, ⟨htree, h⟩, rfl⟩
          · next h =>
              refine ⟨?_, rfl⟩
              rintro entry' ⟨htree', hfits⟩
              obtain rfl := Option.some.inj (htree'.symm.trans htree)
              exact h hfits
      · next htree =>
          refine ⟨?_, rfl⟩
          rintro entry ⟨htree', -⟩
          cases htree.symm.trans htree'
  | _ => exact rfl

theorem of_play {root : RootDirectory} {p : Sys AttachError Unit} {served served' : Served}
    {o : Outcome Halt AttachError Unit} (h : p.play (answer root) 1 served = some (o, served')) :
    p.Runs (mounting root) served.mounts o served'.mounts := by
  have hrun : p.Runs (fun s c r t => r = (answer root s c).1 ∧ t = (answer root s c).2) served o
      served' := .of_play (fun _ _ => ⟨rfl, rfl⟩) h
  refine hrun.map (f := Served.mounts) fun s c r t hcall => ?_
  obtain ⟨rfl, rfl⟩ := hcall
  exact mounting_answer root s c

def start (baseDir : Path) : Served := ⟨.fresh baseDir, 3, fun _ _ => rfl⟩

end Served

def ownMountNs : Namespace := ⟨.mount, 1⟩

def tmpfsPath : Path := ascii "/var/lib/cntr"

def etcEntry : Entry := ⟨ascii "etc", .directory, false, true, true⟩

def binEntry : Entry := ⟨ascii "bin", .symlink (some true), true, true, true⟩

def plainRoot : RootDirectory := ⟨[etcEntry], by decide, by decide, by decide⟩

/-- In a container with a merged `/usr`, `bin` is a symlink to `usr/bin`. -/
def mergedRoot : RootDirectory := ⟨[etcEntry, binEntry], by decide, by decide, by decide⟩

theorem captureAndAttach_attaches_etc :
    ∃ mounts, (captureAndAttachContainerTrees someTarget ownMountNs tmpfsPath).Runs
        (mounting plainRoot) (.fresh tmpfsPath) (.value ()) mounts ∧
      etcEntry ∈ plainRoot.entries ∧ etcEntry.captured = true ∧
      Attached tmpfsPath etcEntry mounts := by
  have hplay : ((captureAndAttachContainerTrees someTarget ownMountNs tmpfsPath).play
      (Served.answer plainRoot) 1 (Served.start tmpfsPath)).any
        (fun r => decide (r.1 = .value ())) = true := by
    decide +kernel
  obtain ⟨⟨o, served⟩, hrun, hend⟩ := (Option.any_eq_true _ _).mp hplay
  obtain rfl := of_decide_eq_true hend
  have hrun : (captureAndAttachContainerTrees someTarget ownMountNs tmpfsPath).Runs
      (mounting plainRoot) (.fresh tmpfsPath) (.value ()) served.mounts := Served.of_play hrun
  have hattached := (captureAndAttach_attaches_iff plainRoot someTarget ownMountNs tmpfsPath
    hrun).mpr (by decide)
  exact ⟨served.mounts, hrun, by decide, by decide, hattached etcEntry (by decide) (by decide)⟩

/-- The tree of `bin` does not fit the file that is created for it. -/
theorem captureAndAttach_leavesOut :
    ∃ mounts, (captureAndAttachContainerTrees someTarget ownMountNs tmpfsPath).Runs
        (mounting mergedRoot) (.fresh tmpfsPath) (.value ()) mounts ∧
      binEntry ∈ mergedRoot.entries ∧ binEntry.captured = true ∧
      ¬Attached tmpfsPath binEntry mounts := by
  have hplay : ((captureAndAttachContainerTrees someTarget ownMountNs tmpfsPath).play
      (Served.answer mergedRoot) 1 (Served.start tmpfsPath)).any (fun r =>
        decide (r.1 = .value ()) &&
          decide (r.2.mounts.mounted (target tmpfsPath binEntry) = none)) = true := by
    decide +kernel
  obtain ⟨⟨o, served⟩, hrun, hend⟩ := (Option.any_eq_true _ _).mp hplay
  rw [Bool.and_eq_true, decide_eq_true_eq, decide_eq_true_eq] at hend
  obtain ⟨rfl, hnone⟩ := hend
  refine ⟨served.mounts, Served.of_play hrun, by decide, by decide, ?_⟩
  rintro ⟨hmounted, -⟩
  cases hnone.symm.trans hmounted

end Cntr.RootTrees
