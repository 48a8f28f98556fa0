import Cntr.AttachChild
import Cntr.MountStack

/-!
Which mounts are idmapped when `attach` has gone through the lines of
`/proc/mounts`.
-/

namespace Cntr.IdmappedMounts

open Cntr.ByteText
open Cntr.CallTree
open Cntr.SystemCalls
open Cntr.AttachChild
open Cntr.MountStack
open Cntr.WhiteSpaceText

/-- The components of a mount point. -/
abbrev Location : Type := List Bytes

structure FsMount where
  fstype : Bytes
  idmapped : Bool
  deriving DecidableEq

namespace FsMount

def Mappable (mount : FsMount) : Prop := mount.fstype ∉ skipFstypes ∧ mount.idmapped = false

instance : DecidablePred Mappable := fun _ => inferInstanceAs (Decidable (_ ∧ _))

def idmap (mount : FsMount) : FsMount := { mount with idmapped := true }

theorem not_mappable_idmap (mount : FsMount) : ¬mount.idmap.Mappable := fun h => by cases h.2

end FsMount

abbrev Mounts : Type := Stack Bytes FsMount

/-- The mounts of a host, the trees that are open, and the lines of `/proc/mounts`
that are still to be read. -/
structure Host where
  mounts : Mounts
  trees : List (Fd × Mounts)
  unread : List Bytes

namespace Host

/-- A tree is opened at a directory, which must be on some mount. -/
def Opens (reachable : Location → Bool) (host : Host) (p : Location) : Prop :=
  reachable p = true ∧ treeAt p host.mounts ≠ []

instance (reachable : Location → Bool) (host : Host) (p : Location) :
    Decidable (host.Opens reachable p) := inferInstanceAs (Decidable (_ ∧ _))

def withTree (host : Host) (fd : Fd) (tree : Mounts) : Host :=
  { host with trees := (fd, tree) :: host.trees }

def closeTree (host : Host) (fd : Fd) : Host :=
  { host with trees := host.trees.filter fun tree => tree.1 ≠ fd }

def mount (host : Host) (p : Location) (tree : Mounts) : Host :=
  { host with mounts := host.mounts ++ place p tree }

end Host

/-- How the kernel treats the calls that idmap mounts. A tree is idmapped as a
whole or not at all, and nothing fails that need not. -/
def idmapping (reachable : Location → Bool) : Kernel linux Host
  | host, .nextLine _, .ok (some line), host' =>
      ∃ rest, host.unread = line :: rest ∧ host' = { host with unread := rest }
  | host, .nextLine _, .ok none, host' => host.unread = [] ∧ host' = host
  | _, .nextLine _, .error _, _ => False
  | host, .openTree .cwd path, .ok fd, host' =>
      host.Opens reachable (pathComponents path) ∧ host.trees.lookup fd = none ∧
        host' = host.withTree fd (treeAt (pathComponents path) host.mounts)
  | host, .openTree .cwd path, .error _, host' =>
      ¬host.Opens reachable (pathComponents path) ∧ host' = host
  | host, .idmapMount fd _, .ok _, host' =>
      ∃ tree, host.trees.lookup fd = some tree ∧ Ready FsMount.Mappable tree ∧
        host' = host.withTree fd (relabel FsMount.idmap tree)
  | host, .idmapMount fd _, .error _, host' =>
      (∀ tree, host.trees.lookup fd = some tree → ¬Ready FsMount.Mappable tree) ∧ host' = host
  | host, .moveMount fd path, .ok _, host' =>
      ∃ tree, host.trees.lookup fd = some tree ∧ host' = host.mount (pathComponents path) tree
  | host, .moveMount fd _, .error _, host' => host.trees.lookup fd = none ∧ host' = host
  | host, .closeFd fd, _, host' => host' = host.closeTree fd
  | host, _, _, host' => host' = host

/-- The mount point of a line, if the program does anything there. -/
def target (baseDir : Path) (line : Bytes) : Option Path :=
  if isUtf8 line then idmappedMountPoint baseDir line else none

/-- The mount points of lines, as far as there are directories. -/
def places (reachable : Location → Bool) (baseDir : Path) (lines : List Bytes) : List Location :=
  ((lines.filterMap (target baseDir)).map pathComponents).filter reachable

/-- What is left of the mounts when the program has gone through the lines. -/
def idmapAll (reachable : Location → Bool) (baseDir : Path) (lines : List Bytes)
    (mounts : Mounts) : Mounts :=
  overlayAll FsMount.Mappable FsMount.idmap (places reachable baseDir lines) mounts

section Lines

variable {reachable : Location → Bool} {baseDir : Path}

theorem idmapTree_wp (usernsFd : NsId) (path : Path) {host : Host} {fd : Fd} {tree : Mounts}
    (htree : host.trees.lookup fd = some tree) :
    (idmapTree usernsFd path fd).wp (idmapping reachable) (fun _ _ => True)
      (fun o host' => o = .value () ∧ host'.unread = host.unread ∧
        host'.mounts = if Ready FsMount.Mappable tree then
          host.mounts ++ place (pathComponents path) (relabel FsMount.idmap tree)
        else host.mounts) host := by
  refine ⟨trivial, ?_⟩
  rintro (e | _) host' answer
  · obtain ⟨hnot, rfl⟩ := answer
    exact ⟨rfl, rfl, (if_neg (hnot tree htree)).symm⟩
  · obtain ⟨tree', htree', hready, rfl⟩ := answer
    obtain rfl := Option.some.inj (htree'.symm.trans htree)
    refine ⟨trivial, ?_⟩
    have hlookup : (host.withTree fd (relabel FsMount.idmap tree')).trees.lookup fd =
        some (relabel FsMount.idmap tree') := List.lookup_cons_self
    rintro (e | _) host' answer
    · cases hlookup.symm.trans answer.1
    · obtain ⟨moved, hmoved, rfl⟩ := answer
      obtain rfl := Option.some.inj (hmoved.symm.trans hlookup)
      exact ⟨rfl, rfl, (if_pos hready).symm⟩

theorem idmapAt_wp (usernsFd : NsId) (path : Path) (host : Host) :
    (idmapAt usernsFd path).wp (idmapping reachable) (fun _ _ => True)
      (fun o host' => o = .value () ∧ host'.unread = host.unread ∧
        host'.mounts = if reachable (pathComponents path) then
          overlay FsMount.Mappable FsMount.idmap (pathComponents path) host.mounts
        else host.mounts) host := by
  refine ⟨trivial, ?_⟩
  rintro (e | fd) host' answer
  · obtain ⟨hnot, rfl⟩ := answer
    refine ⟨rfl, rfl, ?_⟩
    split
    · next hreachable =>
        have hready : ¬Ready FsMount.Mappable (treeAt (pathComponents path) host'.mounts) :=
          fun h => hnot ⟨hreachable, h.1⟩
        exact (if_neg hready).symm
    · rfl
  · obtain ⟨hopens, -, rfl⟩ := answer
    show ((idmapTree usernsFd path fd).bind _).wp _ _ _ _
    refine Program.wp_seq (idmapTree_wp usernsFd path List.lookup_cons_self) fun o host' ho => ?_
    obtain ⟨rfl, hunread, hmounts⟩ := ho
    refine ⟨trivial, fun _ host'' answer => ?_⟩
    obtain rfl : host'' = host'.closeTree fd := answer
    refine ⟨rfl, hunread, ?_⟩
    rw [if_pos hopens.1]
    exact hmounts

theorem idmapLine_wp (usernsFd : NsId) (line : Bytes) (host : Host) :
    (idmapLine usernsFd baseDir line).wp (idmapping reachable) (fun _ _ => True)
      (fun o host' => o = .value () ∧ host'.unread = host.unread ∧
        host'.mounts = idmapAll reachable baseDir [line] host.mounts) host := by
  have hnone : target baseDir line = none → idmapAll reachable baseDir [line] host.mounts =
      host.mounts := by
    intro htarget
    rw [idmapAll, places, List.filterMap_cons_none htarget]
    rfl
  rw [idmapLine]
  split
  · next hutf8 =>
      have htarget : target baseDir line = idmappedMountPoint baseDir line := if_pos hutf8
      cases hpoint : idmappedMountPoint baseDir line with
      | none => exact ⟨rfl, rfl, (hnone (htarget.trans hpoint)).symm⟩
      | some path =>
          refine Program.wp_post (idmapAt_wp usernsFd path host) fun o host' ho => ?_
          obtain ⟨rfl, hunread, hmounts⟩ := ho
          refine ⟨rfl, hunread, hmounts.trans ?_⟩
          rw [idmapAll, places, List.filterMap_cons_some (htarget.trans hpoint), List.map_cons,
            List.filter_cons]
          split <;> rfl
  · next hutf8 =>
      have htarget : target baseDir line = none := if_neg hutf8
      exact ⟨rfl, rfl, (hnone htarget).symm⟩

theorem idmapAll_cons (line : Bytes) (lines : List Bytes) (mounts : Mounts) :
    idmapAll reachable baseDir (line :: lines) mounts =
      idmapAll reachable baseDir lines (idmapAll reachable baseDir [line] mounts) := by
  have hplaces : places reachable baseDir (line :: lines) =
      places reachable baseDir [line] ++ places reachable baseDir lines := by
    rw [places, places, places, ← List.filter_append, ← List.map_append, ← List.filterMap_append]
    rfl
  rw [idmapAll, hplaces, overlayAll, List.foldl_append]
  rfl

theorem applyIdmappedMounts_wp (usernsFd : NsId) (baseDir : Path) (host : Host) :
    (applyIdmappedMounts usernsFd baseDir).wp (idmapping reachable) (fun _ _ => True)
      (fun o host' => o = .value () →
        host'.mounts = idmapAll reachable baseDir host.unread host.mounts) host := by
  refine ⟨trivial, ?_⟩
  rintro (e | _) host' answer
  · intro h
    cases h
  obtain rfl : host' = host := answer
  -- what is still to be read leads to the same mounts in every round
  refine ⟨fun _ host'' => idmapAll reachable baseDir host''.unread host''.mounts =
    idmapAll reachable baseDir host'.unread host'.mounts, rfl, fun _ host₁ hloop => ⟨trivial, ?_⟩⟩
  rintro (e | _ | line) host₂ answer
  · exact answer.elim
  · obtain ⟨hunread, rfl⟩ := answer
    intro _
    rw [← hloop, hunread]
    rfl
  · obtain ⟨rest, hunread, rfl⟩ := answer
    show ((idmapLine usernsFd baseDir line).bind _).wp _ _ _ _
    refine Program.wp_seq (idmapLine_wp usernsFd line _) fun o host₃ ho => ?_
    obtain ⟨rfl, hunread', hmounts⟩ := ho
    show idmapAll reachable baseDir host₃.unread host₃.mounts = _
    rw [hunread', hmounts, ← hloop, hunread]
    exact (idmapAll_cons line rest _).symm

end Lines

def ToIdmap (baseDir : Path) (m : Location × FsMount) : Prop :=
  m.2.fstype ∉ skipFstypes ∧ ¬pathComponents baseDir <+: m.1

instance (baseDir : Path) : DecidablePred (ToIdmap baseDir) := fun _ =>
  inferInstanceAs (Decidable (_ ∧ _))

def ShownIdmapped (p : Location) (mounts : Mounts) : Prop :=
  ∃ mount, shown p mounts = some mount ∧ mount.idmapped = true

/-- What is to be idmapped is, where it is visible, and nothing else is. -/
structure Idmapped (baseDir : Path) (before after : Mounts) : Prop where
  asked : ∀ m ∈ before, ToIdmap baseDir m → ShownIdmapped m.1 after
  only : ∀ m ∈ after, m.2.idmapped = true → ToIdmap baseDir m

/-- Each mount that is to be idmapped is at or below a place where a tree can be
idmapped before anything below it is, and such trees have no other mounts. -/
structure Idmappable (baseDir : Path) (places : List Location) (mounts : Mounts) : Prop where
  before : ∀ m ∈ mounts, m.2.idmapped = true → ToIdmap baseDir m
  effective : ∀ p, Effective FsMount.Mappable places mounts p →
    ∀ m ∈ place p (treeAt p mounts), ToIdmap baseDir m
  reached : ∀ m ∈ mounts, ToIdmap baseDir m → ShownIdmapped m.1 mounts ∨
    ∃ p, Effective FsMount.Mappable places mounts p ∧ p <+: m.1

section Places

variable {reachable : Location → Bool} {baseDir : Path} {lines : List Bytes} {mounts : Mounts}

theorem not_below_of_mem_places {p : Location} (h : p ∈ places reachable baseDir lines) :
    ¬pathComponents baseDir <+: p := by
  obtain ⟨path, hpath, rfl⟩ := List.mem_map.mp (List.mem_filter.mp h).1
  obtain ⟨line, -, hline⟩ := List.mem_filterMap.mp hpath
  rw [target] at hline
  split at hline
  · rw [idmappedMountPoint] at hline
    split at hline
    · split at hline
      · cases hline
      · next hkept =>
          obtain rfl := Option.some.inj hline
          intro hbelow
          exact hkept (.inr (List.isPrefixOf_iff_prefix.mpr hbelow))
    · cases hline
  · cases hline

theorem mem_places_of_effective {p : Location} {ps : List Location}
    (h : Effective FsMount.Mappable ps mounts p) : p ∈ ps := List.mem_of_find?_eq_some h.2

theorem shownIdmapped_iff (p : Location) :
    ShownIdmapped p (idmapAll reachable baseDir lines mounts) ↔ ShownIdmapped p mounts ∨
      ∃ q, Effective FsMount.Mappable (places reachable baseDir lines) mounts q ∧ q <+: p := by
  rcases shown_cases FsMount.not_mappable_idmap (places reachable baseDir lines) mounts p with
    ⟨⟨mount, hshown⟩, hbelow⟩ | ⟨hshown, hnone⟩
  · exact ⟨fun _ => .inr hbelow, fun _ => ⟨_, hshown, rfl⟩⟩
  · rw [ShownIdmapped, idmapAll, hshown]
    refine ⟨.inl, ?_⟩
    rintro (h | ⟨q, heffective, hqp⟩)
    · exact h
    · exact absurd hqp (hnone q heffective)

theorem idmapped_iff :
    Idmapped baseDir mounts (idmapAll reachable baseDir lines mounts) ↔
      Idmappable baseDir (places reachable baseDir lines) mounts := by
  constructor
  · rintro ⟨hasked, honly⟩
    refine ⟨fun m hm => ?_, fun p heffective m hm => ?_, fun m hm hask => ?_⟩
    · exact honly m ((mem_overlayAll FsMount.not_mappable_idmap).mpr (.inl hm))
    · obtain ⟨m', hm', rfl⟩ := List.mem_map.mp hm
      have hmappable := heffective.1.2 m' hm'
      by_cases hroot : m'.1 = []
      · refine ⟨hmappable.1, ?_⟩
        rw [hroot, List.append_nil]
        exact not_below_of_mem_places (mem_places_of_effective heffective)
      · have hcopied := mem_overlayAll_of_effective FsMount.not_mappable_idmap heffective hm' hroot
        exact ⟨hmappable.1, (honly _ hcopied rfl).2⟩
    · exact (shownIdmapped_iff m.1).mp (hasked m hm hask)
  · rintro ⟨hbefore, heffective, hreached⟩
    refine ⟨fun m hm hask => ?_, fun m hm hidmapped => ?_⟩
    · exact (shownIdmapped_iff m.1).mpr (hreached m hm hask)
    · rcases mem_of_mem_overlayAll FsMount.not_mappable_idmap hm with hm | ⟨p, hp, m', hm', rfl⟩
      · exact hbefore m hm hidmapped
      · exact heffective p hp m' hm'

end Places

/-- Whatever lines `/proc/mounts` shows, the right mounts are idmapped if and only if
the mounts are `Idmappable`. -/
theorem applyIdmappedMounts_idmaps_iff (reachable : Location → Bool) (mounts : Mounts)
    (lines : List Bytes) (usernsFd : NsId) (baseDir : Path) {host : Host}
    (run : (applyIdmappedMounts usernsFd baseDir).Runs (idmapping reachable) ⟨mounts, [], lines⟩
      (.value ()) host) :
    Idmapped baseDir mounts host.mounts ↔
      Idmappable baseDir (places reachable baseDir lines) mounts := by
  rw [run.of_wp (applyIdmappedMounts_wp usernsFd baseDir _) rfl]
  exact idmapped_iff

namespace Host

def unusedFd (host : Host) : Fd := SystemCalls.unusedFd (host.trees.map Prod.fst)

theorem lookup_unusedFd (host : Host) : host.trees.lookup host.unusedFd = none := by
  refine List.lookup_eq_none_iff.mpr fun tree htree => ?_
  have hne : host.unusedFd ≠ tree.1 := by
    intro heq
    apply unusedFd_notMem (host.trees.map Prod.fst)
    exact List.mem_map.mpr ⟨tree, htree, heq.symm⟩
  simpa using hne

/-- The answers of a kernel on which every directory exists. -/
def answer (host : Host) : (c : Syscall) → c.Answer × Host
  | .openFile _ _ => (.ok (), host)
  | .nextLine _ =>
      match host.unread with
      | [] => (.ok none, host)
      | line :: rest => (.ok (some line), { host with unread := rest })
  | .openTree .cwd path =>
      if host.Opens (fun _ => true) (pathComponents path) then
        (.ok host.unusedFd,
          host.withTree host.unusedFd (treeAt (pathComponents path) host.mounts))
      else (.error .perm, host)
  | .idmapMount fd _ =>
      match host.trees.lookup fd with
      | none => (.error (.os .perm), host)
      | some tree =>
          if Ready FsMount.Mappable tree then
            (.ok (), host.withTree fd (relabel FsMount.idmap tree))
          else (.error (.os .perm), host)
  | .moveMount fd path =>
      match host.trees.lookup fd with
      | none => (.error .perm, host)
      | some tree => (.ok (), host.mount (pathComponents path) tree)
  | .closeFd fd => ((), host.closeTree fd)
  | c => (c.refused, host)

theorem idmapping_answer (host : Host) (c : Syscall) :
    idmapping (fun _ => true) host c (host.answer c).1 (host.answer c).2 := by
  cases c with
  | nextLine file =>
      rw [answer]
      split
      · next hunread => exact ⟨hunread, rfl⟩
      · next line rest hunread => exact ⟨rest, hunread, rfl⟩
  | openTree base path =>
      cases base with
      | containerRoot => exact rfl
      | cwd =>
          rw [answer]
          split
          · next hopens => exact ⟨hopens, host.lookup_unusedFd, rfl⟩
          · next hnot => exact ⟨hnot, rfl⟩
  | idmapMount fd userns =>
      rw [answer]
      split
      · next hnone => exact ⟨fun tree htree => (by cases hnone.symm.trans htree), rfl⟩
      · next tree htree =>
          split
          · next hready => exact ⟨tree, htree, hready, rfl⟩
          · next hnot =>
              refine ⟨fun tree' htree' => ?_, rfl⟩
              obtain rfl := Option.some.inj (htree'.symm.trans htree)
              exact hnot
  | moveMount fd path =>
      rw [answer]
      split
      · next hnone => exact ⟨hnone, rfl⟩
      · next tree htree => exact ⟨tree, htree, rfl⟩
  | _ => exact rfl

end Host

def basePath : Path := ascii "/var/lib/cntr"

/-- On a root file system that cannot be idmapped there is one that can, with
another one on it. -/
def dataMounts : Mounts :=
  [([ascii "/"], ⟨ascii "overlay", false⟩), ([ascii "/", ascii "data"], ⟨ascii "ext4", false⟩),
    ([ascii "/", ascii "data", ascii "sub"], ⟨ascii "xfs", false⟩)]

def dataLines : List Bytes :=
  [ascii "overlay / overlay rw 0 0", ascii "/dev/sda1 /data ext4 rw 0 0",
    ascii "/dev/sdb1 /data/sub xfs rw 0 0"]

theorem applyIdmappedMounts_idmaps_data :
    ∃ host : Host, (applyIdmappedMounts 1 basePath).Runs (idmapping fun _ => true)
        ⟨dataMounts, [], dataLines⟩ (.value ()) host ∧
      Idmappable basePath (places (fun _ => true) basePath dataLines) dataMounts ∧
      Idmapped basePath dataMounts host.mounts := by
  have hplay : ((applyIdmappedMounts 1 basePath).play Host.answer 4
      ⟨dataMounts, [], dataLines⟩).any (fun r => decide (r.1 = .value ())) = true := by
    decide +kernel
  obtain ⟨⟨o, host⟩, hrun, hend⟩ := (Option.any_eq_true _ _).mp hplay
  obtain rfl := of_decide_eq_true hend
  have hplaces : places (fun _ => true) basePath dataLines =
      [[ascii "/", ascii "data"], [ascii "/", ascii "data", ascii "sub"]] := by
    decide +kernel
  have hrun : (applyIdmappedMounts 1 basePath).Runs (idmapping fun _ => true)
      ⟨dataMounts, [], dataLines⟩ (.value ()) host := .of_play Host.idmapping_answer hrun
  suffices hidmappable :
      Idmappable basePath (places (fun _ => true) basePath dataLines) dataMounts from
    ⟨host, hrun, hidmappable, (applyIdmappedMounts_idmaps_iff (fun _ => true) dataMounts
      dataLines 1 basePath hrun).mpr hidmappable⟩
  rw [hplaces]
  refine ⟨by decide, fun p heffective => ?_, fun m hm hask => .inr ?_⟩
  · have hall : ∀ p ∈ [[ascii "/", ascii "data"], [ascii "/", ascii "data", ascii "sub"]],
        ∀ m ∈ place p (treeAt p dataMounts), ToIdmap basePath m := by
      decide
    exact hall p (mem_places_of_effective heffective)
  · refine ⟨[ascii "/", ascii "data"], by decide, ?_⟩
    revert m
    decide

def rootMounts : Mounts :=
  [([ascii "/"], ⟨ascii "ext4", false⟩), ([ascii "/", ascii "proc"], ⟨ascii "proc", false⟩)]

def rootLines : List Bytes := [ascii "/dev/sda1 / ext4 rw 0 0", ascii "proc /proc proc rw 0 0"]

/-- The root file system is left as it is. -/
theorem applyIdmappedMounts_leavesRoot :
    ∃ host, (applyIdmappedMounts 1 basePath).Runs (idmapping fun _ => true)
        ⟨rootMounts, [], rootLines⟩ (.value ()) host ∧
      ¬Idmapped basePath rootMounts host.mounts := by
  have hplay : ((applyIdmappedMounts 1 basePath).play Host.answer 4
      ⟨rootMounts, [], rootLines⟩).any (fun r => decide (r.1 = .value ()) &&
        decide (shown [ascii "/"] r.2.mounts = some ⟨ascii "ext4", false⟩)) = true := by
    decide +kernel
  obtain ⟨⟨o, host⟩, hrun, hend⟩ := (Option.any_eq_true _ _).mp hplay
  rw [Bool.and_eq_true, decide_eq_true_eq, decide_eq_true_eq] at hend
  obtain ⟨rfl, hshown⟩ := hend
  refine ⟨host, .of_play Host.idmapping_answer hrun, fun hidmapped => ?_⟩
  obtain ⟨mount, hmount, hset⟩ :=
    hidmapped.asked ([ascii "/"], ⟨ascii "ext4", false⟩) (by decide) (by decide)
  obtain rfl := Option.some.inj (hshown.symm.trans hmount)
  cases hset

end Cntr.IdmappedMounts
