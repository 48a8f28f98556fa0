import Cntr.RootTrees

/-!
What the base directory holds once the trees of a container are attached to it,
whether or not there is a copy of the time zone in it.
-/

namespace Cntr.BaseDirectory

open Cntr.ByteText
open Cntr.CallTree
open Cntr.SystemCalls
open Cntr.AttachChild
open Cntr.NamespaceFiles
open Cntr.RootTrees

/-- What is at a path: a directory or a file, the tree that is mounted there, and the
bytes of the file. -/
structure Cell where
  point : Option Bool
  mounted : Option Entry
  contents : Bytes
  deriving DecidableEq

@[ext] structure Base where
  mounts : Mounts
  contents : Path → Bytes

namespace Base

def cell (base : Base) (path : Path) : Cell :=
  ⟨base.mounts.points path, base.mounts.mounted path, base.contents path⟩

/-- A file that is created is truncated. -/
def create (base : Base) (path : Path) (isDir : Bool) : Base where
  mounts := base.mounts.create path isDir
  contents := if isDir then base.contents else Function.update base.contents path []

def mount (base : Base) (path : Path) (entry : Entry) : Base :=
  { base with mounts := base.mounts.mount path entry }

def closeTree (base : Base) (fd : Fd) : Base :=
  { base with mounts := base.mounts.closeTree fd }

def write (base : Base) (path : Path) (contents : Bytes) : Base where
  mounts := base.mounts.create path false
  contents := Function.update base.contents path contents

/-- An empty tmpfs, or one with a copy of the time zone. -/
def fresh (baseDir : Path) : Base where
  mounts := .fresh baseDir
  contents := fun _ => []

theorem cell_create_self (base : Base) (path : Path) (isDir : Bool) :
    (base.create path isDir).cell path =
      ⟨some isDir, base.mounts.mounted path, if isDir then base.contents path else []⟩ := by
  have hpoint : (base.create path isDir).mounts.points path = some isDir :=
    Function.update_self _ _ _
  rw [cell, hpoint, create]
  cases isDir with
  | true => rfl
  | false => simp only [Bool.false_eq_true, if_false, Function.update_self]; rfl

theorem cell_create_other (base : Base) {path path' : Path} (isDir : Bool) (hne : path' ≠ path) :
    (base.create path isDir).cell path' = base.cell path' := by
  have hpoint : (base.create path isDir).mounts.points path' = base.mounts.points path' :=
    Function.update_of_ne hne _ _
  rw [cell, hpoint, create]
  cases isDir with
  | true => rfl
  | false => simp only [Bool.false_eq_true, if_false, Function.update_of_ne hne]; rfl

theorem cell_mount_self (base : Base) (path : Path) (entry : Entry) :
    (base.mount path entry).cell path =
      { base.cell path with mounted := some entry } := by
  have hmounted : (base.mount path entry).mounts.mounted path = some entry :=
    Function.update_self _ _ _
  rw [cell, hmounted]
  rfl

theorem cell_mount_other (base : Base) {path path' : Path} (entry : Entry) (hne : path' ≠ path) :
    (base.mount path entry).cell path' = base.cell path' := by
  have hmounted : (base.mount path entry).mounts.mounted path' = base.mounts.mounted path' :=
    Function.update_of_ne hne _ _
  rw [cell, hmounted]
  rfl

theorem cell_closeTree (base : Base) (fd : Fd) (path : Path) :
    (base.closeTree fd).cell path = base.cell path := rfl

end Base

def truncated (contents : Path → Bytes) : Event linux → Path → Bytes
  | ⟨.openFile path .create, .ok _⟩ => Function.update contents path []
  | _ => contents

/-- The kernel of `mounting` with the bytes of the files. -/
def holding (root : RootDirectory) (localtime : Bytes) : Kernel linux Base
  | base, .readToEnd .localtime, .ok contents, base' => contents = localtime ∧ base' = base
  | base, .writePath path contents, .ok _, base' =>
      base.mounts.points path ≠ some true ∧ base' = base.write path contents
  | base, c, r, base' =>
      mounting root base.mounts c r base'.mounts ∧ base'.contents = truncated base.contents ⟨c, r⟩

/-- What the program makes of the target of a tree. -/
def Cell.attach (entry : Entry) (cell : Cell) : Cell :=
  if cell.point = some (!entry.takenForDir) then cell
  else
    { point := some entry.takenForDir
      mounted :=
        if some entry.takenForDir = entry.node.resolvesToDir then some entry else cell.mounted
      contents := if entry.takenForDir then cell.contents else [] }

def attachAll (baseDir : Path) : List Entry → (Path → Cell) → Path → Cell
  | [], cells => cells
  | entry :: entries, cells =>
      attachAll baseDir entries (Function.update cells (target baseDir entry)
        ((cells (target baseDir entry)).attach entry))

section Loop

variable {root : RootDirectory} {localtime : Bytes} {baseDir : Path} {entry : Entry}
  {start : Base}

theorem createMountPoint_wp (hbase : start.mounts.points baseDir = some true) (isDir : Bool) :
    (createMountPoint baseDir (target baseDir entry) isDir).wp (holding root localtime)
      (fun _ _ => True) (fun o base =>
        if start.mounts.points (target baseDir entry) = some (!isDir) then
          o = .value false ∧ base = start
        else o = .value true ∧ base = start.create (target baseDir entry) isDir) start := by
  cases isDir with
  | true =>
      refine ⟨trivial, ?_⟩
      rintro (e | _) base ⟨⟨hpoint, hmounts⟩, hcontents⟩
      · exact (if_pos hpoint).mpr ⟨rfl, Base.ext hmounts hcontents⟩
      · exact (if_neg hpoint).mpr ⟨rfl, Base.ext hmounts hcontents⟩
  | false =>
      have hsame : start.mounts.create baseDir true = start.mounts := by
        rw [Mounts.create, ← hbase, Function.update_eq_self]
      refine ⟨trivial, ?_⟩
      rintro (e | _) base ⟨⟨hpoint, hmounts⟩, hcontents⟩
      · cases hbase.symm.trans hpoint
      obtain rfl : base = start := Base.ext (hmounts.trans hsame) hcontents
      refine ⟨trivial, ?_⟩
      rintro (e | _) base' ⟨⟨hpoint, hmounts⟩, hcontents⟩
      · exact (if_pos hpoint).mpr ⟨rfl, Base.ext hmounts hcontents⟩
      · exact (if_neg hpoint).mpr ⟨rfl, Base.ext hmounts hcontents⟩

structure Tried (baseDir : Path) (entry : Entry) (tree : Fd) (start base : Base) : Prop where
  trees : ∀ fd, fd ≠ tree → base.mounts.trees fd = start.mounts.trees fd
  other : ∀ path, path ≠ target baseDir entry → base.cell path = start.cell path
  own : base.cell (target baseDir entry) = (start.cell (target baseDir entry)).attach entry

theorem fits_create_iff {fd : Fd} (htree : start.mounts.trees fd = some entry) (path : Path)
    (isDir : Bool) (entry' : Entry) :
    (start.create path isDir).mounts.Fits fd path entry' ↔
      entry' = entry ∧ some isDir = entry.node.resolvesToDir := by
  have hpoint : (start.create path isDir).mounts.points path = some isDir :=
    Function.update_self _ _ _
  have htree' : (start.create path isDir).mounts.trees fd = some entry := htree
  rw [Mounts.Fits, hpoint, htree', Option.some_inj]
  constructor
  · rintro ⟨rfl, -, hfits⟩
    exact ⟨rfl, hfits⟩
  · rintro ⟨rfl, hfits⟩
    exact ⟨rfl, Option.some_ne_none _, hfits⟩

theorem attachCaptured_wp {captured : CapturedTree} (hheld : Held start.mounts entry captured)
    (hbase : start.mounts.points baseDir = some true) :
    (attachCaptured baseDir captured).wp (holding root localtime) (fun _ _ => True)
      (fun o base => o = .value () ∧ Tried baseDir entry captured.tree start base) start := by
  have htarget : pushPath baseDir captured.name = target baseDir entry := by
    rw [hheld.name, target]
  have hclose : ∀ base fd, fd ≠ captured.tree →
      (Base.closeTree base captured.tree).mounts.trees fd = base.mounts.trees fd :=
    fun base fd hne => Function.update_of_ne hne _ _
  rw [attachCaptured, htarget, hheld.isDir, Program.bind_eq]
  refine Program.wp_seq (createMountPoint_wp hbase _) fun o base ho => ?_
  split at ho
  · next hpoint =>
      obtain ⟨rfl, rfl⟩ := ho
      refine ⟨trivial, fun _ base' answer => ⟨rfl, ?_⟩⟩
      obtain rfl : base' = base.closeTree captured.tree := Base.ext answer.1 answer.2
      refine ⟨hclose base, fun _ _ => rfl, ?_⟩
      exact (if_pos hpoint).symm
  · next hpoint =>
      obtain ⟨rfl, rfl⟩ := ho
      have hcreated := start.cell_create_self (target baseDir entry) entry.takenForDir
      have hattach : (start.cell (target baseDir entry)).attach entry = _ := if_neg hpoint
      refine ⟨trivial, ?_⟩
      rintro (e | _) base₁ ⟨answer, hsame⟩
      · obtain ⟨hmisfit, hmounts₁⟩ := answer
        have hfits_iff := fits_create_iff hheld.tree (target baseDir entry) entry.takenForDir entry
        obtain rfl : base₁ = start.create _ _ := Base.ext hmounts₁ hsame
        refine ⟨trivial, fun _ base₂ answer => ⟨rfl, ?_⟩⟩
        obtain rfl : base₂ = Base.closeTree _ captured.tree := Base.ext answer.1 answer.2
        refine ⟨hclose _, fun path hne => start.cell_create_other _ hne, ?_⟩
        rw [hattach, if_neg fun hfits => hmisfit entry (hfits_iff.mpr ⟨rfl, hfits⟩)]
        exact hcreated
      · obtain ⟨entry', hfits, hmounts₁⟩ := answer
        obtain ⟨rfl, hfits⟩ := (fits_create_iff hheld.tree _ _ _).mp hfits
        obtain rfl : base₁ = Base.mount _ _ entry' := Base.ext hmounts₁ hsame
        refine ⟨trivial, fun _ base₂ answer => ⟨rfl, ?_⟩⟩
        obtain rfl : base₂ = Base.closeTree _ captured.tree := Base.ext answer.1 answer.2
        refine ⟨hclose _, fun path hne => ?_, ?_⟩
        · rw [Base.cell_closeTree, Base.cell_mount_other _ _ hne, Base.cell_create_other _ _ hne]
        · rw [hattach, if_pos hfits, Base.cell_closeTree, Base.cell_mount_self, hcreated]
          rfl

theorem attachAll_other {entries : List Entry} {cells : Path → Cell} {path : Path}
    (h : ∀ entry ∈ entries, path ≠ target baseDir entry) :
    attachAll baseDir entries cells path = cells path := by
  induction entries generalizing cells with
  | nil => rfl
  | cons first entries ih =>
      rw [attachAll, ih fun entry hmem => h entry (List.mem_cons_of_mem _ hmem)]
      exact Function.update_of_ne (h first List.mem_cons_self) _ _

/-- The targets differ, so that each tree finds what was there at the beginning. -/
theorem attachAll_own {entries : List Entry} {cells : Path → Cell}
    (hentries : ∀ entry ∈ entries, entry ∈ root.entries) (hnodup : entries.Nodup)
    (hmem : entry ∈ entries) :
    attachAll baseDir entries cells (target baseDir entry) =
      (cells (target baseDir entry)).attach entry := by
  have hdistinct : ∀ entry ∈ entries, ∀ entry' ∈ entries, entry ≠ entry' →
      target baseDir entry ≠ target baseDir entry' := fun entry h entry' h' hne heq =>
    hne (root.target_inj (hentries entry h) (hentries entry' h') heq)
  induction entries generalizing cells with
  | nil => cases hmem
  | cons first entries ih =>
      obtain ⟨hfirst, hnodup⟩ := List.nodup_cons.mp hnodup
      have hrest : ∀ entry ∈ entries, entry ∈ first :: entries := fun _ =>
        List.mem_cons_of_mem first
      rw [attachAll]
      rcases List.mem_cons.mp hmem with rfl | htail
      · rw [attachAll_other, Function.update_self]
        intro entry' hmem'
        refine hdistinct _ List.mem_cons_self _ (hrest _ hmem') ?_
        rintro rfl
        exact hfirst hmem'
      · rw [ih (fun entry h => hentries entry (hrest entry h)) hnodup htail
          (fun entry h entry' h' => hdistinct entry (hrest entry h) entry' (hrest entry' h')),
          Function.update_of_ne]
        refine hdistinct _ hmem _ List.mem_cons_self ?_
        rintro rfl
        exact hfirst htail

theorem forEach_attach_wp {entries : List Entry} {captured : List CapturedTree}
    (hentries : ∀ entry ∈ entries, entry ∈ root.entries)
    (hheld : List.Forall₂ (Held start.mounts) entries captured)
    (hnodup : (captured.map CapturedTree.tree).Nodup)
    (hbase : start.mounts.points baseDir = some true) :
    (Program.forEach (attachCaptured baseDir) captured).wp (holding root localtime)
      (fun _ _ => True) (fun o base => o = .value () ∧
        base.cell = attachAll baseDir entries start.cell) start := by
  induction captured generalizing entries start with
  | nil =>
      obtain rfl := List.forall₂_nil_right_iff.mp hheld
      exact ⟨rfl, rfl⟩
  | cons first captured ih =>
      obtain ⟨entry, entries, hfirst, hrest, rfl⟩ := List.forall₂_cons_right_iff.mp hheld
      obtain ⟨hfresh, hnodup⟩ := List.nodup_cons.mp hnodup
      refine Program.wp_seq (attachCaptured_wp hfirst hbase) fun o base ho => ?_
      obtain ⟨rfl, htried⟩ := ho
      have hheld' : List.Forall₂ (Held base.mounts) entries captured :=
        held_of_trees hrest fun tree hmem => htried.trees _ fun heq =>
          hfresh (List.mem_map.mpr ⟨tree, hmem, heq⟩)
      have hne : target baseDir entry ≠ baseDir :=
        root.target_ne_base (hentries entry List.mem_cons_self)
      have hbase' : base.mounts.points baseDir = some true :=
        (congrArg Cell.point (htried.other baseDir hne.symm)).trans hbase
      refine Program.wp_post (ih (fun entry hmem => hentries entry (List.mem_cons_of_mem _ hmem))
        hheld' hnodup hbase') fun o base' ho => ?_
      obtain ⟨rfl, hcells⟩ := ho
      refine ⟨rfl, ?_⟩
      have hcell : base.cell = Function.update start.cell (target baseDir entry)
          ((start.cell (target baseDir entry)).attach entry) := by
        funext path
        by_cases hpath : path = target baseDir entry
        · rw [hpath, htried.own, Function.update_self]
        · rw [htried.other path hpath, Function.update_of_ne hpath]
      rw [hcells, hcell, attachAll]

end Loop

section Run

variable {root : RootDirectory} {localtime : Bytes} {baseDir : Path} {start : Base}

/-- The calls that answer here as they do for the mounts alone. -/
def Looks : Syscall → Prop
  | .statIsDirectory _ | .openTree _ _ => True
  | c => Elsewhere c

theorem holding_of_looks {base base' : Base} {c : Syscall} {r : c.Answer} (hc : Looks c)
    (answer : holding root localtime base c r base') :
    mounting root base.mounts c r base'.mounts ∧ base'.contents = base.contents := by
  cases c <;> first | exact hc.elim | exact answer

theorem looks_wp {ε α : Type} {p : Sys ε α} {Q : Outcome Halt ε α → Mounts → Prop}
    (hp : p.Within Looks fun _ => True)
    (h : p.wp (mounting root) (fun _ _ => True) Q start.mounts) :
    p.wp (holding root localtime) (fun _ _ => True)
      (fun o base => Q o base.mounts ∧ base.contents = start.contents) start := by
  refine Program.wp_of_runs (fun o base run => ⟨?_, ?_⟩) fun _ _ _ => trivial
  · have run' := hp.runs_map (f := Base.mounts) (L := mounting root)
      (fun _ _ _ _ hc answer => (holding_of_looks hc answer).1) run
    exact run'.of_wp h
  · exact (run.of_wp (hp.wp (I := fun base => base.contents = start.contents)
      (fun _ _ _ _ => trivial)
      (fun _ _ _ _ hI hc answer => (holding_of_looks hc answer).2.trans hI) rfl)).1

theorem captureTrees_looks (entries : List DirEntry) :
    (captureTrees entries).Within Looks fun _ => True :=
  captureTrees_within (fun _ => trivial) (fun _ => trivial) entries

theorem elsewhere_bind {ε α β : Type} {p : Sys ε α} (hp : p.Within Elsewhere fun _ => True)
    {f : α → Sys ε β} {Q : β → Base → Prop}
    (hf : ∀ a, (f a).wp (holding root localtime) (fun _ _ => True)
      (fun o base => ∀ b, o = .value b → Q b base) start) :
    (p.bind f).wp (holding root localtime) (fun _ _ => True)
      (fun o base => ∀ b, o = .value b → Q b base) start := by
  have hlooks : p.Within Looks fun _ => True :=
    hp.mono (fun c hc => by cases c <;> first | exact hc.elim | trivial) fun _ => id
  refine Program.wp_bind_same ?_ (fun o hnot b heq => absurd heq (hnot b)) hf
  exact Program.wp_post (looks_wp hlooks (RootTrees.elsewhere_wp hp start.mounts))
    fun o base ho => Base.ext ho.1 ho.2

/-- The trees were attached in the order of some listing. -/
def Assembled (root : RootDirectory) (baseDir : Path) (start base : Base) : Prop :=
  ∃ entries : List Entry, entries.Perm root.entries ∧
    base.cell = attachAll baseDir (entries.filter Entry.captured) start.cell

theorem Assembled.cell_own {start base : Base} (h : Assembled root baseDir start base)
    {entry : Entry} (hentry : entry ∈ root.entries) (hcaptured : entry.captured = true) :
    base.cell (target baseDir entry) = (start.cell (target baseDir entry)).attach entry := by
  obtain ⟨entries, hperm, hcell⟩ := h
  have hnodup : entries.Nodup := hperm.nodup_iff.mpr (List.Nodup.of_map _ root.nodup)
  rw [hcell]
  refine attachAll_own (fun entry' hmem => hperm.mem_iff.mp (List.mem_of_mem_filter hmem))
    (hnodup.filter _) (List.mem_filter.mpr ⟨hperm.mem_iff.mpr hentry, hcaptured⟩)

theorem Assembled.cell_other {start base : Base} (h : Assembled root baseDir start base)
    {path : Path} (hpath : ∀ entry ∈ root.entries, entry.captured = true →
      path ≠ target baseDir entry) : base.cell path = start.cell path := by
  obtain ⟨entries, hperm, hcell⟩ := h
  rw [hcell]
  refine attachAll_other fun entry hmem => ?_
  obtain ⟨hmem, hcaptured⟩ := List.mem_filter.mp hmem
  exact hpath entry (hperm.mem_iff.mp hmem) hcaptured

theorem captureAndAttach_wp (containerPid : Pid) (ourMountNs : Namespace)
    (hbase : start.mounts.points baseDir = some true) :
    (captureAndAttachContainerTrees containerPid ourMountNs baseDir).wp (holding root localtime)
      (fun _ _ => True) (fun o base => ∀ b, o = .value b → Assembled root baseDir start base)
      start := by
  refine elsewhere_bind (openKind_elsewhere _ _).mapError fun containerMountNs => ?_
  refine elsewhere_bind (apply_elsewhere _).mapError fun _ => ⟨trivial, ?_⟩
  rintro (e | listing) base ⟨answer, hsame⟩
  · exact fun b heq => by cases heq
  obtain ⟨hlisted, hmounts⟩ := answer
  obtain rfl : base = start := Base.ext hmounts hsame
  obtain ⟨entries, hperm, heq⟩ := rootEntries_of_listed hlisted
  have hentries : ∀ entry ∈ entries, entry ∈ root.entries := fun entry => hperm.mem_iff.mp
  show ((captureTrees (rootEntries listing)).bind _).wp _ _ _ _
  rw [heq]
  refine Program.wp_seq (looks_wp (captureTrees_looks _) (captureTrees_wp hentries _))
    fun o opened ho => ?_
  obtain ⟨⟨captured, rfl, hopened⟩, hcontents⟩ := ho
  refine elsewhere_bind (apply_elsewhere _).mapError fun _ => ?_
  have hcell : opened.cell = base.cell := by
    funext path
    rw [Base.cell, hopened.points, hopened.mounted, hcontents]
    rfl
  refine Program.wp_post (forEach_attach_wp (fun entry hmem => hentries entry
    (List.mem_of_mem_filter hmem)) hopened.held hopened.nodup ?_) fun o base' ho _ _ => ?_
  · rw [hopened.points, hbase]
  · exact ⟨entries, hperm, by rw [ho.2, hcell]⟩

end Run

end Cntr.BaseDirectory
