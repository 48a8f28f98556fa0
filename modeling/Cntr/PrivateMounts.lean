import Cntr.ProcessRoles
import Cntr.RootTrees

/-!
Where the mounts and the new files go: `attach` mounts only in a mount namespace of its
own that no mount leaves, and makes files on a file system that it has mounted there;
`exec` mounts nothing.
-/

namespace Cntr.PrivateMounts

open Cntr.ByteText
open Cntr.CallTree
open Cntr.SystemCalls
open Cntr.AttachChild
open Cntr.CallFootprints
open Cntr.CallsMade
open Cntr.IdmapHelperProcess
open Cntr.ProcessRoles (idMapFiles)
open Cntr.RootTrees (asParent pushPath_name)

section Names

/-- A name that stands for an entry of a directory. -/
structure Proper (name : Bytes) : Prop where
  nonempty : name ≠ []
  noSlash : slash ∉ name
  notDot : name ≠ ascii "."

theorem pathComponents_pushPath (baseDir : Path) {name : Bytes} (hname : Proper name) :
    pathComponents (pushPath baseDir name) = pathComponents baseDir ++ [name] := by
  have hsingle : name.splitOn slash = [name] := List.splitOn_eq_singleton hname.noSlash
  rw [pushPath_name hname.noSlash]
  -- the part of the name of the directory before its last slash
  have hparent : baseDir = [] ∧ asParent baseDir = [] ∨
      ∃ dir, asParent baseDir = dir ++ [slash] ∧
        (dir ++ [slash]).head? = baseDir.head? ∧
          (baseDir.splitOn slash).filter (· ≠ []) = (dir.splitOn slash).filter (· ≠ []) := by
    rcases List.eq_nil_or_concat baseDir with rfl | ⟨dir, last, rfl⟩
    · exact .inl ⟨rfl, rfl⟩
    rw [List.concat_eq_append]
    refine .inr ?_
    by_cases hlast : last = slash
    · refine ⟨dir, by simp [asParent, hlast], by rw [hlast], ?_⟩
      rw [hlast, List.splitOn_append_cons_self, List.filter_append]
      simp
    · refine ⟨dir ++ [last], by simp [asParent, hlast], ?_, rfl⟩
      cases dir <;> rfl
  rcases hparent with ⟨rfl, hparent⟩ | ⟨dir, hparent, hhead, habove⟩
  · have hhead : name.head? ≠ some slash := fun h => hname.noSlash (List.mem_of_head? h)
    rw [hparent, List.nil_append, pathComponents, hsingle, if_neg hhead]
    simp [hname.nonempty, pathComponents]
  · have hparts : ((dir ++ [slash] ++ name).splitOn slash).filter (· ≠ []) =
        (dir.splitOn slash).filter (· ≠ []) ++ [name] := by
      rw [List.append_assoc, List.singleton_append, List.splitOn_append_cons_self,
        List.filter_append, hsingle]
      simp [hname.nonempty]
    have hstart : (dir ++ [slash] ++ name).head? = baseDir.head? := by
      rw [← hhead]
      cases dir <;> rfl
    rw [hparent, pathComponents, pathComponents, hparts, hstart, habove]
    generalize (dir.splitOn slash).filter (· ≠ []) = above
    split
    · simp [hname.notDot]
    · cases above with
      | nil => simp
      | cons first rest => simp [hname.notDot]

/-- The entries of a directory are not below each other. -/
theorem pathStartsWith_pushPath {baseDir : Path} {name name' : Bytes} (hname : Proper name)
    (hname' : Proper name')
    (h : pathStartsWith (pushPath baseDir name) (pushPath baseDir name') = true) :
    name' = name := by
  rw [pathStartsWith, pathComponents_pushPath baseDir hname, pathComponents_pushPath baseDir hname',
    List.isPrefixOf_iff_prefix] at h
  have heq := h.eq_of_length (by simp)
  simpa using heq

/-- A directory is not below its entries. -/
theorem not_pathStartsWith_pushPath {baseDir : Path} {name : Bytes} (hname : Proper name) :
    pathStartsWith baseDir (pushPath baseDir name) = false := by
  rw [← Bool.not_eq_true, pathStartsWith, pathComponents_pushPath baseDir hname,
    List.isPrefixOf_iff_prefix]
  intro h
  have hlength := h.length_le
  rw [List.length_append, List.length_singleton] at hlength
  omega

end Names

inductive Place where
  | inherited
  | own
  | entered (ns : NsId)
  deriving DecidableEq

/-- What a process knows of the mounts around it: the mount namespace it is in, the
files by which it can get back into its own, whether no mount of its own is shared,
and, once it has opened trees elsewhere, the paths at which it has put trees; the first
directory that it has made, and whether it has mounted an empty file system there. -/
structure View where
  place : Place
  pid : Option Pid
  ownFiles : List NsId
  isPrivate : Bool
  captures : Bool
  foreign : List Path
  baseDir : Option Path
  covered : Bool

namespace View

def start : View := ⟨.inherited, none, [], false, false, [], none, false⟩

/-- A new namespace starts with copies of all mounts, which stay shared. A process
finds the files of its own namespaces under its own number. -/
def after (view : View) : Event linux → View
  | ⟨.fork, .ok .child⟩ => { view with pid := none }
  | ⟨.getpid, pid⟩ => { view with pid := some pid }
  | ⟨.createDirAll path, _⟩ => { view with baseDir := view.baseDir.or (some path) }
  | ⟨.unshareMount, .ok _⟩ => ⟨.own, view.pid, [], false, false, [], view.baseDir, false⟩
  | ⟨.makeMountsPrivate, .ok _⟩ => { view with isPrivate := true }
  | ⟨.mountTmpfs path, .ok _⟩ =>
      if view.place = .own ∧ view.baseDir = some path then { view with covered := true }
      else view
  | ⟨.openNamespace _ pid .mount, .ok ns⟩ =>
      if view.place = .own ∧ view.pid = some pid then
        { view with ownFiles := ns :: view.ownFiles }
      else view
  | ⟨.setns .mount ns, .ok _⟩ =>
      { view with place := if ns ∈ view.ownFiles then .own else .entered ns }
  | ⟨.openTree _ _, .ok _⟩ =>
      if view.place = .own then view else { view with captures := true }
  | ⟨.moveMount _ target, .ok _⟩ =>
      if view.captures then { view with foreign := target :: view.foreign } else view
  | _ => view

/-- What is mounted at the path is mounted in the own namespace only: on a private
mount, and not on a tree from elsewhere, which may be shared. -/
def Contains (view : View) (path : Path) : Prop :=
  view.place = .own ∧ view.isPrivate = true ∧
    ∀ tree ∈ view.foreign, pathStartsWith path tree = false

/-- The path is that of the directory with a file system of its own, or of an entry of
it, and not of what is in a tree from elsewhere. -/
def Covers (view : View) (path : Path) : Prop :=
  view.Contains path ∧ view.covered = true ∧ ∃ dir, view.baseDir = some dir ∧
    (path = dir ∨ ∃ name, Proper name ∧ name ≠ ascii ".." ∧ path = pushPath dir name)

end View

def mountPoint : Syscall → Option Path
  | .mountTmpfs path => some path
  | .bindMount _ target => some target
  | .moveMount _ target => some target
  | _ => none

/-- The files of the kernel that are opened as if they might not be there. -/
def IsControlFile (path : Path) : Prop :=
  path ∈ idMapFiles ∨ ∃ dir, path = pushPath dir (ascii "tasks")

/-- A process makes one directory, and whatever else it makes is on the file system
that it has mounted there. -/
def MayMake (view : View) : Syscall → Prop
  | .createDirAll path => view.baseDir = none ∨ view.Covers path
  | .openFile path .create => IsControlFile path ∨ view.Covers path
  | .writePath path _ => IsControlFile path ∨ view.Covers path
  | _ => True

def Permits (view : View) (c : Syscall) : Prop :=
  (∀ path, mountPoint c = some path → view.Contains path) ∧
    (c = .makeMountsPrivate → view.place = .own) ∧ MayMake view c

/-- A directory has each entry once, and an entry has a name. -/
def Plausible : Event linux → Prop
  | ⟨.readContainerRoot, .ok listing⟩ =>
      ((listing.filterMap Except.toOption).map DirEntry.fileName).Nodup ∧
        ∀ entry ∈ listing.filterMap Except.toOption,
          entry.fileName ≠ [] ∧ slash ∉ entry.fileName
  | _ => True

/-- The kernel that keeps the view of a process. -/
def viewing : Kernel linux View :=
  fun view c r view' => Plausible ⟨c, r⟩ ∧ view' = view.after ⟨c, r⟩

/-- The calls that do not change any mount and make no file. -/
def Inert : Syscall → Prop
  | .makeMountsPrivate | .mountTmpfs _ | .bindMount _ _ | .moveMount _ _ => False
  | .createDirAll _ => False
  | .openFile path .create => IsControlFile path
  | .writePath path _ => IsControlFile path
  | _ => True

theorem permits_of_inert {view : View} {c : Syscall} (hc : Inert c) : Permits view c := by
  refine ⟨fun path hpath => ?_, ?_, ?_⟩
  · cases c <;> first | exact hc.elim | cases hpath
  · rintro rfl
    exact hc.elim
  · unfold MayMake
    split
    · exact hc.elim
    · exact .inl hc
    · exact .inl hc
    · trivial

theorem baseDir_after {view : View} {c : Syscall} (r : c.Answer) (hc : Inert c) :
    (view.after ⟨c, r⟩).baseDir = view.baseDir := by
  unfold View.after
  split
  · rfl
  · rfl
  · next heq =>
      cases heq
      exact hc.elim
  · rfl
  · rfl
  · split <;> rfl
  · split <;> rfl
  · rfl
  · split <;> rfl
  · split <;> rfl
  · rfl

section Wp

variable {ε ε' α β : Type} {view : View}

/-- Parts that mount nothing and make nothing. -/
theorem inert_wp {p : Sys ε α} (hp : p.Within Inert fun _ => True) (view : View) :
    p.wp viewing Permits (fun _ view' => view'.baseDir = view.baseDir) view := by
  refine Program.wp_post (hp.wp (I := fun view' : View => view'.baseDir = view.baseDir) ?_ ?_
    rfl) fun _ _ ho => ho.1
  · intro view' c _ hc
    exact permits_of_inert hc
  · rintro view' c r _ hview' hc ⟨-, rfl⟩
    exact (baseDir_after r hc).trans hview'

theorem inert_bind {p : Sys ε α} (hp : p.Within Inert fun _ => True) {f : α → Sys ε β}
    (hf : ∀ a view', view'.baseDir = view.baseDir →
      (f a).wp viewing Permits (fun _ _ => True) view') :
    (p.bind f).wp viewing Permits (fun _ _ => True) view := by
  refine Program.wp_seq (inert_wp hp view) fun o view' ho => ?_
  cases o with
  | value a => exact hf a view' ho
  | error e => trivial
  | halted h => trivial

theorem inert_of_confines {p : Sys ε α} (h : p.Within Confines fun _ => True) :
    p.Within Inert fun _ => True := by
  refine h.mono (fun c hc => ?_) fun _ _ => trivial
  cases c with
  | openFile path mode =>
      cases mode with
      | create =>
          have htasks : ∃ dir, path = pushPath dir (ascii "tasks") := hc rfl
          exact Or.inr htasks
      | _ => trivial
  | _ => trivial

theorem inert_of_connects {p : Sys ε α} (h : p.Within Connects fun _ => True) :
    p.Within Inert fun _ => True := by
  refine h.mono (fun c hc => ?_) fun _ _ => trivial
  cases c with
  | openFile => exact hc.elim
  | _ => trivial

theorem inert_of_observes {p : Sys ε α} (h : p.Within Observes fun _ => True) :
    p.Within Inert fun _ => True :=
  inert_of_confines (confines_of_observes h)

theorem inert_of_supervises {p : Sys ε α} {halts : Halt → Prop}
    (h : p.Within Supervises halts) : p.Within Inert fun _ => True := by
  refine h.mono (fun c hc => ?_) fun _ _ => trivial
  cases c <;> first | trivial | exact (hc.elim id id).elim

/-- A process in its own namespace, of which no mount is shared. -/
structure Own (view : View) : Prop where
  place : view.place = .own
  isPrivate : view.isPrivate = true

/-- The directory it has made has a file system of its own. -/
structure Covered (dir : Path) (view : View) : Prop where
  baseDir : view.baseDir = some dir
  covered : view.covered = true

/-- Nothing from elsewhere is in it yet. -/
structure Pristine (view : View) : Prop extends Own view where
  captures : view.captures = false
  foreign : view.foreign = []

theorem Pristine.contains (h : Pristine view) (path : Path) : view.Contains path := by
  refine ⟨h.place, h.isPrivate, fun tree htree => ?_⟩
  rw [h.foreign] at htree
  cases htree

/-- All but the calls by which the process comes to another namespace, or makes files. -/
def InPlace : Syscall → Prop
  | .setns _ _ | .unshareMount | .createDirAll _ | .writePath _ _ => False
  | .openFile _ mode => mode ≠ .create
  | _ => True

theorem Pristine.permits (h : Pristine view) {c : Syscall} (hc : InPlace c) :
    Permits view c := by
  refine ⟨fun path _ => h.contains path, fun _ => h.place, ?_⟩
  unfold MayMake
  split
  · exact hc.elim
  · exact absurd rfl hc
  · exact hc.elim
  · trivial

/-- What is known of the view at first is known of it later. -/
structure Kept (view view' : View) : Prop where
  ownFiles : ∀ ns ∈ view.ownFiles, ns ∈ view'.ownFiles
  baseDir : view'.baseDir = view.baseDir
  covered : view.covered = true → view'.covered = true

theorem Kept.refl (view : View) : Kept view view := ⟨fun _ => id, rfl, id⟩

theorem Kept.trans {view view' view'' : View} (h : Kept view view') (h' : Kept view' view'') :
    Kept view view'' :=
  ⟨fun ns hns => h'.ownFiles ns (h.ownFiles ns hns), h'.baseDir.trans h.baseDir,
    fun hcovered => h'.covered (h.covered hcovered)⟩

theorem Kept.isCovered {dir : Path} {view view' : View} (h : Kept view view')
    (hcovered : Covered dir view) : Covered dir view' :=
  ⟨h.baseDir.trans hcovered.baseDir, h.covered hcovered.covered⟩

theorem Pristine.after (h : Pristine view) (ev : Event linux) (hc : InPlace ev.1) :
    Pristine (view.after ev) ∧ Kept view (view.after ev) := by
  unfold View.after
  split
  · exact ⟨⟨⟨h.place, h.isPrivate⟩, h.captures, h.foreign⟩, fun _ => id, rfl, id⟩
  · exact ⟨⟨⟨h.place, h.isPrivate⟩, h.captures, h.foreign⟩, fun _ => id, rfl, id⟩
  · exact hc.elim
  · exact hc.elim
  · exact ⟨⟨⟨h.place, rfl⟩, h.captures, h.foreign⟩, fun _ => id, rfl, id⟩
  · split
    · exact ⟨⟨⟨h.place, h.isPrivate⟩, h.captures, h.foreign⟩, fun _ => id, rfl, fun _ => rfl⟩
    · exact ⟨h, .refl _⟩
  · split
    · exact ⟨⟨⟨h.place, h.isPrivate⟩, h.captures, h.foreign⟩,
        fun _ => List.mem_cons_of_mem _, rfl, id⟩
    · exact ⟨h, .refl _⟩
  · exact hc.elim
  · rw [if_pos h.place]
    exact ⟨h, .refl _⟩
  · rw [h.captures]
    exact ⟨h, .refl _⟩
  · exact ⟨h, .refl _⟩

/-- In a pristine namespace of its own a process may mount what it likes. -/
theorem pristine_wp {p : Sys ε α} (hp : p.Within InPlace fun _ => True) (h : Pristine view) :
    p.wp viewing Permits (fun _ view' => Pristine view' ∧ Kept view view') view := by
  refine Program.wp_post (hp.wp (I := fun view' => Pristine view' ∧ Kept view view') ?_ ?_
    ⟨h, .refl view⟩) fun _ _ ho => ho.1
  · rintro view' c ⟨hview', -⟩ hc
    exact hview'.permits hc
  · rintro view' c r _ ⟨hview', hkept⟩ hc ⟨-, rfl⟩
    obtain ⟨hafter, hkept'⟩ := hview'.after ⟨c, r⟩ hc
    exact ⟨hafter, hkept.trans hkept'⟩

theorem pristine_bind {p : Sys ε α} (hp : p.Within InPlace fun _ => True) (h : Pristine view)
    {f : α → Sys ε β}
    (hf : ∀ a view', Pristine view' → Kept view view' →
      (f a).wp viewing Permits (fun _ _ => True) view') :
    (p.bind f).wp viewing Permits (fun _ _ => True) view := by
  refine Program.wp_seq (pristine_wp hp h) fun o view' ho => ?_
  cases o with
  | value a => exact hf a view' ho.1 ho.2
  | error e => trivial
  | halted h => trivial

theorem inPlace_of_idmaps {p : Sys ε α} (h : p.Within Idmaps fun _ => True) :
    p.Within InPlace fun _ => True := by
  refine h.mono (fun c hc => ?_) fun _ _ => trivial
  cases c with
  | openFile path mode =>
      obtain rfl : mode = .read := hc
      exact nofun
  | _ => trivial

theorem inPlace_of_observes {p : Sys ε α} (h : p.Within Observes fun _ => True) :
    p.Within InPlace fun _ => True := by
  refine h.mono (fun c hc => ?_) fun _ _ => trivial
  cases c with
  | openFile path mode =>
      obtain rfl : mode = .read := hc
      exact nofun
  | _ => trivial

end Wp

section Child

variable {view : View}

/-- A process that looks at another namespace and can come back to its own. -/
structure Away (ownNs : NsId) (dir : Path) (view : View) : Prop extends Covered dir view where
  isPrivate : view.isPrivate = true
  foreign : view.foreign = []
  ownFile : ownNs ∈ view.ownFiles

/-- The calls with which a process looks at the root directory of the container. -/
def Captures : Syscall → Prop
  | .setns _ _ | .readContainerRoot | .statIsDirectory _ | .openTree _ _ => True
  | c => Observes c

theorem inert_of_captures {c : Syscall} (hc : Captures c) : Inert c := by
  cases c with
  | openFile path mode =>
      obtain rfl : mode = .read := hc
      trivial
  | _ => trivial

theorem Away.after {ownNs : NsId} {dir : Path} (h : Away ownNs dir view) (ev : Event linux)
    (hc : Captures ev.1) : Away ownNs dir (view.after ev) := by
  unfold View.after
  split
  · exact hc.elim
  · exact hc.elim
  · exact hc.elim
  · exact hc.elim
  · exact hc.elim
  · exact hc.elim
  · split
    · exact ⟨⟨h.baseDir, h.covered⟩, h.isPrivate, h.foreign, List.mem_cons_of_mem _ h.ownFile⟩
    · exact h
  · exact ⟨⟨h.baseDir, h.covered⟩, h.isPrivate, h.foreign, h.ownFile⟩
  · split
    · exact h
    · exact ⟨⟨h.baseDir, h.covered⟩, h.isPrivate, h.foreign, h.ownFile⟩
  · exact hc.elim
  · exact h

theorem permits_of_captures {c : Syscall} (hc : Captures c) : Permits view c :=
  permits_of_inert (inert_of_captures hc)

/-- The names of the captured trees are those of some of the entries. -/
theorem captureTrees_wp {ownNs : NsId} {dir : Path} (h : Away ownNs dir view)
    (entries : List DirEntry) :
    (captureTrees entries).wp viewing Permits (fun o view' => Away ownNs dir view' ∧
      ∀ trees, o = .value trees →
        (trees.map CapturedTree.name).Sublist (entries.map DirEntry.fileName)) view := by
  induction entries generalizing view with
  | nil =>
      refine ⟨h, ?_⟩
      rintro _ ⟨⟩
      exact .slnil
  | cons entry entries ih =>
      have hdir : (entryIsDir entry).Within Captures fun _ => True := by
        rw [entryIsDir]
        cases entry.fileType with
        | unknown =>
            refine ⟨trivial, ?_⟩
            rintro (e | isDir) <;> trivial
        | _ => trivial
      have hfirst := hdir.wp (K := viewing) (G := Permits) (I := Away ownNs dir)
        (fun _ _ _ hc => permits_of_captures hc)
        (fun view c r view' h hc answer => answer.2 ▸ h.after ⟨c, r⟩ hc) h
      refine Program.wp_seq hfirst fun o view' ho => ?_
      cases o with
      | error e => exact ⟨ho.1, by rintro _ ⟨⟩⟩
      | halted h => exact ⟨ho.1, by rintro _ ⟨⟩⟩
      | value isDir =>
          have haway : ∀ r, Away ownNs dir
              (view'.after ⟨.openTree .containerRoot entry.fileName, r⟩) :=
            fun r => ho.1.after _ (by trivial)
          refine ⟨permits_of_captures trivial, ?_⟩
          rintro (e | tree) _ ⟨-, rfl⟩
          · have hrest := ih (haway (.error e))
            refine Program.wp_post hrest fun o view' ho => ?_
            exact ⟨ho.1, fun trees htrees => (ho.2 trees htrees).cons _⟩
          · have hrest := ih (haway (.ok tree))
            show Program.wp _ _ ((captureTrees entries).bind _) _ _
            refine Program.wp_seq hrest fun o view' ho => ?_
            cases o with
            | error e => exact ⟨ho.1, by rintro _ ⟨⟩⟩
            | halted h => exact ⟨ho.1, by rintro _ ⟨⟩⟩
            | value trees =>
                refine ⟨ho.1, ?_⟩
                rintro _ ⟨⟩
                exact (ho.2 trees rfl).cons_cons _

/-- The calls that make a place for a tree to be put at. -/
def MakesMountPoint (baseDir target : Path) : Syscall → Prop
  | .createDirAll path => path = baseDir ∨ path = target
  | .openFile path .create => path = target
  | _ => False

theorem createMountPoint_makes (baseDir target : Path) (isDir : Bool) :
    (createMountPoint baseDir target isDir).Within (MakesMountPoint baseDir target)
      fun _ => True := by
  cases isDir with
  | true => exact ⟨.inr rfl, fun _ => trivial⟩
  | false =>
      refine ⟨.inl rfl, ?_⟩
      rintro (e | _)
      · trivial
      · exact ⟨rfl, fun _ => trivial⟩

/-- One tree is put where no other is. -/
theorem attachCaptured_wp {baseDir : Path} {captured : CapturedTree} (hown : Own view)
    (hcovered : Covered baseDir view) (hname : Proper captured.name)
    (hdots : captured.name ≠ ascii "..")
    (hbase : ∀ tree ∈ view.foreign, pathStartsWith baseDir tree = false)
    (hapart : ∀ tree ∈ view.foreign,
      pathStartsWith (pushPath baseDir captured.name) tree = false) :
    (attachCaptured baseDir captured).wp viewing Permits
      (fun _ view' => Own view' ∧ Covered baseDir view' ∧ ∀ tree ∈ view'.foreign,
        tree ∈ view.foreign ∨ tree = pushPath baseDir captured.name) view := by
  let target : Path := pushPath baseDir captured.name
  let Ready (view' : View) : Prop :=
    Own view' ∧ Covered baseDir view' ∧ view'.foreign = view.foreign
  have hcovers : ∀ view', Ready view' → view'.Covers baseDir ∧ view'.Covers target := by
    rintro view' ⟨hown', hcovered', hforeign⟩
    refine ⟨⟨⟨hown'.place, hown'.isPrivate, ?_⟩, hcovered'.covered, baseDir, hcovered'.baseDir,
        .inl rfl⟩, ⟨⟨hown'.place, hown'.isPrivate, ?_⟩, hcovered'.covered, baseDir,
        hcovered'.baseDir, .inr ⟨captured.name, hname, hdots, rfl⟩⟩⟩
    · rw [hforeign]
      exact hbase
    · rw [hforeign]
      exact hapart
  have hfirst : (createMountPoint baseDir target captured.isDir).wp viewing Permits
      (fun _ view' => Ready view') view := by
    refine Program.wp_post ((createMountPoint_makes baseDir target captured.isDir).wp
      (I := Ready) ?_ ?_ ⟨hown, hcovered, rfl⟩) fun _ _ ho => ho.1
    · intro view' c hready hc
      obtain ⟨hcoversBase, hcoversTarget⟩ := hcovers view' hready
      unfold MakesMountPoint at hc
      split at hc
      · refine ⟨nofun, nofun, .inr ?_⟩
        rcases hc with rfl | rfl
        · exact hcoversBase
        · exact hcoversTarget
      · refine ⟨nofun, nofun, .inr ?_⟩
        rw [hc]
        exact hcoversTarget
      · exact hc.elim
    · rintro view' c r _ ⟨hown', hcovered', hforeign⟩ hc ⟨-, rfl⟩
      unfold MakesMountPoint at hc
      split at hc
      · refine ⟨⟨hown'.place, hown'.isPrivate⟩, ⟨?_, hcovered'.covered⟩, hforeign⟩
        show view'.baseDir.or _ = some baseDir
        rw [hcovered'.baseDir]
        rfl
      · exact ⟨hown', hcovered', hforeign⟩
      · exact hc.elim
  refine Program.wp_seq hfirst fun o view₁ hready => ?_
  obtain ⟨hown₁, hcovered₁, hforeign₁⟩ := hready
  have hclose : ∀ view', Own view' → Covered baseDir view' → (∀ tree ∈ view'.foreign,
      tree ∈ view.foreign ∨ tree = target) →
      (sys (.closeFd captured.tree) : Sys AttachError Unit).wp viewing Permits
        (fun _ view' => Own view' ∧ Covered baseDir view' ∧ ∀ tree ∈ view'.foreign,
          tree ∈ view.foreign ∨ tree = target) view' := by
    intro view' hown' hcovered' hforeign'
    refine ⟨permits_of_inert trivial, ?_⟩
    rintro _ _ ⟨-, rfl⟩
    exact ⟨hown', hcovered', hforeign'⟩
  have hold : ∀ tree ∈ view₁.foreign, tree ∈ view.foreign ∨ tree = target := by
    rw [hforeign₁]
    exact fun tree htree => .inl htree
  rcases o with (_ | _) | e | h
  · exact hclose _ hown₁ hcovered₁ hold
  · refine ⟨⟨?_, nofun, trivial⟩, ?_⟩
    · rintro _ ⟨⟩
      refine ⟨hown₁.place, hown₁.isPrivate, ?_⟩
      rw [hforeign₁]
      exact hapart
    · rintro (e | _) _ ⟨-, rfl⟩
      · exact hclose _ hown₁ hcovered₁ hold
      · show Program.wp _ _ _ _ (if view₁.captures then _ else view₁)
        split
        · refine hclose _ ⟨hown₁.place, hown₁.isPrivate⟩
            ⟨hcovered₁.baseDir, hcovered₁.covered⟩ fun tree htree => ?_
          rcases List.mem_cons.mp htree with rfl | htree
          · exact .inr rfl
          · exact hold tree htree
        · exact hclose _ hown₁ hcovered₁ hold
  · exact ⟨hown₁, hcovered₁, hold⟩
  · exact ⟨hown₁, hcovered₁, hold⟩

/-- As no two trees have the same name, none is put on another. -/
theorem attachAll_wp {baseDir : Path} {trees : List CapturedTree} (hown : Own view)
    (hcovered : Covered baseDir view) (hnodup : (trees.map CapturedTree.name).Nodup)
    (hproper : ∀ captured ∈ trees, Proper captured.name ∧ captured.name ≠ ascii "..")
    (hbase : ∀ tree ∈ view.foreign, pathStartsWith baseDir tree = false)
    (hapart : ∀ tree ∈ view.foreign, ∀ captured ∈ trees,
      pathStartsWith (pushPath baseDir captured.name) tree = false) :
    (Program.forEach (attachCaptured baseDir) trees).wp viewing Permits (fun _ _ => True)
      view := by
  induction trees generalizing view with
  | nil => trivial
  | cons captured trees ih =>
      rw [List.map_cons, List.nodup_cons] at hnodup
      obtain ⟨⟨hfirst, hdots⟩, hrest⟩ := List.forall_mem_cons.mp hproper
      have hattach := attachCaptured_wp hown hcovered hfirst hdots hbase fun tree htree =>
        hapart tree htree captured List.mem_cons_self
      refine Program.wp_seq hattach fun o view' ho => ?_
      obtain ⟨hown', hcovered', hforeign⟩ := ho
      cases o with
      | error e => trivial
      | halted h => trivial
      | value _ =>
          refine ih hown' hcovered' hnodup.2 hrest (fun tree htree => ?_)
            fun tree htree other hother => ?_
          · rcases hforeign tree htree with htree | rfl
            · exact hbase tree htree
            · exact not_pathStartsWith_pushPath hfirst
          · rcases hforeign tree htree with htree | rfl
            · exact hapart tree htree other (List.mem_cons_of_mem _ hother)
            · cases hbelow : pathStartsWith (pushPath baseDir other.name)
                (pushPath baseDir captured.name) with
              | false => rfl
              | true =>
                  have hsame := pathStartsWith_pushPath (hrest other hother).1 hfirst hbelow
                  exact absurd (hsame ▸ List.mem_map_of_mem hother) hnodup.1

theorem away_bind {ε α β : Type} {ownNs : NsId} {dir : Path} {p : Sys ε α}
    (hp : p.Within Captures fun _ => True) (h : Away ownNs dir view) {f : α → Sys ε β}
    (hf : ∀ a view', Away ownNs dir view' →
      (f a).wp viewing Permits (fun _ _ => True) view') :
    (p.bind f).wp viewing Permits (fun _ _ => True) view := by
  have hfirst := hp.wp (K := viewing) (G := Permits) (I := Away ownNs dir)
    (fun _ _ _ hc => permits_of_captures hc)
    (fun view c r view' h hc answer => answer.2 ▸ h.after ⟨c, r⟩ hc) h
  refine Program.wp_seq hfirst fun o view' ho => ?_
  cases o with
  | value a => exact hf a view' ho.1
  | error e => trivial
  | halted h => trivial

/-- Whatever is looked at elsewhere, the trees are put in the own namespace. -/
theorem captureAndAttach_wp {containerPid : Pid} {ownNs : NsId} {baseDir : Path}
    (h : Pristine view) (hcovered : Covered baseDir view) (hfile : ownNs ∈ view.ownFiles) :
    (captureAndAttachContainerTrees containerPid ⟨.mount, ownNs⟩ baseDir).wp viewing Permits
      (fun _ _ => True) view := by
  have hopen : ((NamespaceFiles.openKind .mount containerPid).mapError
      AttachError.namespaceFailed).Within InPlace fun _ => True :=
    inPlace_of_observes (openKind_observes _ _).mapError
  refine pristine_bind hopen h fun containerMountNs view h hkept => ?_
  have haway : Away ownNs baseDir view :=
    ⟨hkept.isCovered hcovered, h.isPrivate, h.foreign, hkept.ownFiles ownNs hfile⟩
  have happly : (containerMountNs.apply.mapError AttachError.namespaceFailed).Within Captures
      fun _ => True :=
    Program.Within.mapError ⟨trivial, fun r => (Program.within_ofExcept _ r).mpr trivial⟩
  refine away_bind happly haway fun _ view haway => ?_
  refine ⟨permits_of_captures trivial, ?_⟩
  rintro (e | listing) _ ⟨hlisting, rfl⟩
  · trivial
  · have hentries : ∀ entry ∈ rootEntries listing,
        Proper entry.fileName ∧ entry.fileName ≠ ascii ".." := by
      intro entry hentry
      obtain ⟨hmem, hnames⟩ := List.mem_filter.mp hentry
      obtain ⟨hdot, hdots⟩ := of_decide_eq_true hnames
      obtain ⟨hnonempty, hslash⟩ := hlisting.2 entry hmem
      exact ⟨⟨hnonempty, hslash, hdot⟩, hdots⟩
    have hnodup : ((rootEntries listing).map DirEntry.fileName).Nodup :=
      hlisting.1.sublist (List.filter_sublist.map _)
    show Program.wp _ _ ((captureTrees (rootEntries listing)).bind _) _ _
    refine Program.wp_seq (captureTrees_wp haway (rootEntries listing)) fun o view ho => ?_
    obtain ⟨haway, hnames⟩ := ho
    cases o with
    | error e => trivial
    | halted h => trivial
    | value trees =>
        have hsublist := hnames trees rfl
        refine ⟨permits_of_captures trivial, ?_⟩
        rintro (e | _) _ ⟨-, rfl⟩
        · trivial
        · have hback : view.after ⟨.setns .mount ownNs, .ok ()⟩ = { view with place := .own } := by
            rw [View.after, if_pos haway.ownFile]
          rw [hback]
          refine attachAll_wp ⟨rfl, haway.isPrivate⟩ ⟨haway.baseDir, haway.covered⟩
            (hnodup.sublist hsublist) ?_ ?_ ?_
          · intro captured hcaptured
            have hname := hsublist.subset (List.mem_map_of_mem hcaptured)
            obtain ⟨entry, hentry, heq⟩ := List.mem_map.mp hname
            exact heq ▸ hentries entry hentry
          · intro tree htree
            rw [haway.foreign] at htree
            cases htree
          · intro tree htree
            rw [haway.foreign] at htree
            cases htree

/-- The process finds its own namespace by its own number. -/
theorem openOwn_wp {ownPid : Pid} (h : Pristine view) (hpid : view.pid = some ownPid) :
    ((NamespaceFiles.openKind .mount ownPid).mapError AttachError.namespaceFailed).wp viewing
      Permits (fun o view' => Pristine view' ∧ Kept view view' ∧
        ∀ ns, o = .value ns → ns.kind = .mount ∧ ns.file ∈ view'.ownFiles) view := by
  have hpath : (Procfs.getPath (ε := NamespaceFiles.NamespaceError)).wp viewing Permits
      (fun _ view' => view' = view) view := by
    refine ⟨permits_of_inert trivial, ?_⟩
    rintro (_ | path) _ ⟨-, rfl⟩ <;> rfl
  refine (Program.wp_mapError _ _ _ _).mpr (Program.wp_seq hpath fun o _ ho => ?_)
  subst ho
  cases o with
  | error e => exact ⟨h, .refl _, by rintro _ ⟨⟩⟩
  | halted h' => exact ⟨h, .refl _, by rintro _ ⟨⟩⟩
  | value procfsPath =>
      refine ⟨permits_of_inert trivial, ?_⟩
      rintro (e | ns) _ ⟨-, rfl⟩
      · exact ⟨h, .refl _, by rintro _ ⟨⟩⟩
      · have hafter := h.after ⟨.openNamespace procfsPath ownPid .mount, .ok ns⟩ trivial
        refine ⟨hafter.1, hafter.2, ?_⟩
        rintro _ ⟨⟩
        refine ⟨rfl, ?_⟩
        rw [View.after, if_pos ⟨h.place, hpid⟩]
        exact List.mem_cons_self

/-- The copy of the container's time zone is on the file system of the own directory. -/
theorem setupContainerTimezone_wp {baseDir : Path} (h : Pristine view)
    (hcovered : Covered baseDir view) :
    (setupContainerTimezone baseDir).wp viewing Permits
      (fun _ view' => Pristine view' ∧ Kept view view') view := by
  have hproper : Proper (ascii ".localtime") := ⟨by decide, by decide, by decide⟩
  have hcopy : view.Covers (pushPath baseDir (ascii ".localtime")) :=
    ⟨h.contains _, hcovered.covered, baseDir, hcovered.baseDir,
      .inr ⟨_, hproper, by decide, rfl⟩⟩
  refine ⟨h.permits trivial, ?_⟩
  rintro (e | _) _ ⟨-, rfl⟩
  · exact ⟨h, .refl _⟩
  refine ⟨h.permits trivial, ?_⟩
  rintro (e | contents) _ ⟨-, rfl⟩
  · exact ⟨h, .refl _⟩
  refine ⟨⟨nofun, nofun, .inr hcopy⟩, ?_⟩
  rintro (e | _) _ ⟨-, rfl⟩
  · exact ⟨h, .refl _⟩
  refine ⟨h.permits trivial, ?_⟩
  rintro r _ ⟨-, rfl⟩
  exact ⟨h, .refl _⟩

theorem assembleHierarchy_wp (options : ChildOptions) (baseDir : Path)
    (hnone : view.baseDir = none) :
    (assembleHierarchy options baseDir).wp viewing Permits (fun _ _ => True) view := by
  refine ⟨⟨nofun, nofun, .inl hnone⟩, ?_⟩
  rintro (e | _) _ ⟨-, rfl⟩
  · trivial
  have hbase : (view.after ⟨.createDirAll baseDir, .ok ()⟩).baseDir = some baseDir := by
    show view.baseDir.or _ = _
    rw [hnone]
    rfl
  generalize view.after ⟨.createDirAll baseDir, .ok ()⟩ = view at hbase ⊢
  refine ⟨permits_of_inert trivial, ?_⟩
  rintro (e | _) view ⟨-, rfl⟩
  · trivial
  refine ⟨permits_of_inert trivial, ?_⟩
  rintro (e | _) _ ⟨-, rfl⟩
  · trivial
  refine ⟨⟨nofun, fun _ => rfl, trivial⟩, ?_⟩
  rintro (e | _) _ ⟨-, rfl⟩
  · trivial
  have hpristine : Pristine ⟨.own, view.pid, [], true, false, [], view.baseDir, false⟩ :=
    ⟨⟨rfl, rfl⟩, rfl, rfl⟩
  refine pristine_bind (inPlace_of_idmaps (idmapMounts_idmaps _ _)) hpristine
    fun _ view₁ hview₁ hkept₁ => ?_
  have hbase₁ : view₁.baseDir = some baseDir := hkept₁.baseDir.trans hbase
  refine ⟨hview₁.permits trivial, ?_⟩
  rintro ownPid _ ⟨-, rfl⟩
  obtain ⟨hview₂, hkept₂⟩ := hview₁.after ⟨.getpid, ownPid⟩ trivial
  show Program.wp _ _ (((NamespaceFiles.openKind .mount ownPid).mapError _).bind _) _ _
  refine Program.wp_seq (openOwn_wp hview₂ rfl) fun o view₃ ho => ?_
  cases o with
  | error e => trivial
  | halted h => trivial
  | value ourMountNs =>
      obtain ⟨hview₃, hkept₃, hopened⟩ := ho
      obtain ⟨kind, ownNs⟩ := ourMountNs
      obtain ⟨rfl, hfile⟩ := hopened _ rfl
      have hbase₃ : view₃.baseDir = some baseDir :=
        hkept₃.baseDir.trans (hkept₂.baseDir.trans hbase₁)
      refine ⟨hview₃.permits trivial, ?_⟩
      rintro (e | _) _ ⟨-, rfl⟩
      · trivial
      obtain ⟨hview₄, hkept₄⟩ := hview₃.after ⟨.mountTmpfs baseDir, .ok ()⟩ trivial
      have hcovered : Covered baseDir (view₃.after ⟨.mountTmpfs baseDir, .ok ()⟩) := by
        refine ⟨hkept₄.baseDir.trans hbase₃, ?_⟩
        rw [View.after, if_pos ⟨hview₃.place, hbase₃⟩]
      show Program.wp _ _ ((setupContainerTimezone baseDir).bind _) _ _
      refine Program.wp_seq (setupContainerTimezone_wp hview₄ hcovered) fun o view₅ ho => ?_
      obtain ⟨hview₅, hkept₅⟩ := ho
      cases o with
      | error e => trivial
      | halted h => trivial
      | value localtimeCopy =>
          refine Program.wp_seq (captureAndAttach_wp hview₅ (hkept₅.isCovered hcovered)
            (hkept₅.ownFiles ownNs (hkept₄.ownFiles ownNs hfile))) fun o view _ => ?_
          cases o <;> trivial

theorem enterAndExecute_inert (options : ChildOptions) (baseDir : Path)
    (cmd : CommandExecution.Cmd) (otherNamespaces : List NamespaceFiles.Namespace) :
    (enterAndExecute options baseDir cmd otherNamespaces).Within Inert fun _ => True := by
  refine (inert_of_confines (applyAll_confines _)).mapError.bind fun _ => ?_
  refine (inert_of_connects setupPty_connects).bind fun ptyMaster => ?_
  refine (inert_of_confines (applySecurityContext_confines trivial _ _)).mapError.bind
    fun _ => ?_
  refine (inert_of_connects (sendReady_connects _)).bind fun _ => ⟨trivial, fun _ => ?_⟩
  refine (inert_of_confines (inheritProfile_confines _)).bind fun _ => ?_
  refine Program.Within.mapError ⟨trivial, fun ownPath => ⟨trivial, ?_⟩⟩
  rintro (e | _) <;> trivial

/-- The attached child only mounts in its own namespace. -/
theorem attachChild_wp (options : ChildOptions) (hnone : view.baseDir = none) :
    (AttachChild.run options).wp viewing Permits (fun _ _ => True) view := by
  have hpid : (sys .getpid : Sys AttachError Pid).Within Inert fun _ => True :=
    (Program.within_call _).mpr trivial
  refine inert_bind hpid fun pid view₁ h₁ => ?_
  refine inert_bind (inert_of_confines (moveTo_confines _ _).mapError) fun _ view₂ h₂ => ?_
  refine inert_bind (inert_of_observes (cmdNew_observes _ _ _ _).mapError) fun cmd view₃ h₃ => ?_
  refine inert_bind (inert_of_observes supportedNamespaces_observes.mapError)
    fun supported view₄ h₄ => ?_
  split
  · trivial
  · refine inert_bind (inert_of_observes (attachOpenOthers_observes _ _ _ _))
      fun otherNamespaces view₅ h₅ => ?_
    refine inert_bind (inert_of_observes getBaseDir_observes) fun baseDir view₆ h₆ => ?_
    have hnone₆ : view₆.baseDir = none := by rw [h₆, h₅, h₄, h₃, h₂, h₁, hnone]
    refine Program.wp_seq (assembleHierarchy_wp options baseDir hnone₆) fun o view₇ _ => ?_
    cases o with
    | error e => trivial
    | halted h => trivial
    | value localtimeCopy =>
        exact Program.wp_post (inert_wp (enterAndExecute_inert _ _ _ _) view₇)
          fun _ _ _ => trivial

end Child

section Program

variable {ε α : Type}

theorem inert_of_supervisorCall {p : Sys ε α}
    (h : p.Within ProcessRoles.SupervisorCall fun _ => True) :
    p.Within Inert fun _ => True := by
  refine h.mono (fun c hc => ?_) fun _ _ => trivial
  cases c with
  | openFile path mode =>
      have hread : mode = .read := hc.elim id fun h => (h.elim id id).elim
      rw [hread]
      trivial
  | _ => first | trivial | exact (hc.elim id fun h => h.elim id id).elim

theorem createHelper_inert (effectiveUser : Option AttachParent.User) :
    (AttachParent.createHelper effectiveUser).Within Inert fun _ => True := by
  refine (ProcessRoles.createHelper_makesHelper effectiveUser).mono (fun c hc => ?_) fun _ => id
  cases c with
  | writePath path _ => exact Or.inl hc
  | _ => trivial

theorem attach_wp {view : View} (opts : AttachParent.AttachOptions)
    (processStatus : ContainerSetup.ProcStatus) (hnone : view.baseDir = none) :
    (AttachParent.attach opts processStatus).wp viewing Permits (fun _ _ => True) view := by
  refine inert_bind (createHelper_inert _) fun helper view₁ h₁ => ?_
  have hattach : ∀ options, (AttachParent.attachWithHelper options).wp viewing Permits
      (fun _ _ => True) view₁ := by
    intro options
    refine inert_bind (inert_of_supervisorCall ProcessRoles.socketPair_supervisorCall)
      fun _ view₂ h₂ => ⟨permits_of_inert trivial, ?_⟩
    rintro (e | _ | childPid) _ ⟨-, rfl⟩
    · trivial
    · refine ⟨permits_of_inert trivial, ?_⟩
      rintro _ _ ⟨-, rfl⟩
      have hnone₂ : view₂.baseDir = none := by rw [h₂, h₁, hnone]
      show Program.wp _ _ ((AttachChild.run options).attempt.bind _) _ _
      rw [Program.wp_bind, Program.wp_attempt]
      refine Program.wp_post (attachChild_wp options hnone₂) fun o _ _ => ?_
      cases o <;> trivial
    · exact Program.wp_post (inert_wp (inert_of_supervises
        (attachParentBranch_supervises childPid)) _) fun _ _ _ => trivial
  rw [Program.bind_eq, Program.wp_bind, Program.wp_attempt]
  refine Program.wp_post (hattach _) fun o view _ => ?_
  cases o with
  | value never => exact nomatch never
  | halted h => trivial
  | error e =>
      exact inert_bind (inert_of_supervisorCall
        (ProcessRoles.dropHelper_supervisorCall helper)) fun _ _ _ => trivial

end Program

end Cntr.PrivateMounts
