import Cntr.IdmappedMounts
import Cntr.OctalEscapes
import Mathlib.Data.List.ModifyLast

/-!
Which paths `apply_idmapped_mounts` opens when `/proc/mounts` is what the kernel
makes of a table of mounts.
-/

namespace Cntr.RenderedMounts

open Cntr.ByteText
open Cntr.CallTree
open Cntr.SystemCalls
open Cntr.TextSplitting
open Cntr.WhiteSpaceText
open Cntr.OctalEscapes
open Cntr.AttachChild
open Cntr.IdmappedMounts

/-- What the kernel shows as digits in `/proc/mounts`. -/
def mountsEscapes : EscapeSet where
  bytes := [space, tab, newline, backslash, 35]
  space_mem := by decide
  newline_mem := by decide
  backslash_mem := by decide
  slash_notMem := by decide
  dot_notMem := by decide

structure Mount where
  device : Bytes
  mountPoint : Path
  fstype : Bytes
  options : Bytes
  absolute : mountPoint.head? = some slash
  options_oneLine : newline ∉ options

namespace Mount

def front (mount : Mount) : List Bytes :=
  [escape mountsEscapes mount.device, escape mountsEscapes mount.mountPoint,
    escape mountsEscapes mount.fstype, mount.options, ascii "0"]

/-- The columns of a line of `/proc/mounts`; the options are shown as they are. -/
def columns (mount : Mount) : List Bytes := mount.front ++ [ascii "0"]

def text (mount : Mount) : Bytes := [space].intercalate mount.columns

def words (mount : Mount) : List Bytes := mount.columns.flatMap splitWhitespace

/-- The second and the third word of the line. -/
def Shows (mount : Mount) (point : Path) (fstype : Bytes) : Prop :=
  ∃ first rest, mount.words = first :: point :: fstype :: rest

theorem splitWhitespace_text (mount : Mount) : splitWhitespace mount.text = mount.words :=
  splitWhitespace_intercalate mount.columns

theorem text_oneLine (mount : Mount) : newline ∉ mount.text := by
  have hzero : newline ∉ ascii "0" := by decide
  apply not_mem_intercalate (by decide)
  simp only [columns, front, List.forall_mem_append, List.forall_mem_cons]
  exact ⟨⟨newline_not_mem_escape _ _, newline_not_mem_escape _ _,
    newline_not_mem_escape _ _, mount.options_oneLine, hzero, by simp⟩, hzero, by simp⟩

theorem stripCarriageReturn_text (mount : Mount) :
    stripCarriageReturn mount.text = mount.text := by
  have hne : mount.front ≠ [] := List.cons_ne_nil _ _
  rw [text, columns, intercalate_concat [space] hne, stripCarriageReturn_append _ (by decide)]
  rfl

end Mount

def contentOf (mounts : List Mount) : Bytes :=
  (mounts.map Mount.text).flatMap (· ++ [newline])

theorem linesOf_contentOf (mounts : List Mount) :
    linesOf (contentOf mounts) = mounts.map Mount.text := by
  have hlines : ∀ line ∈ mounts.map Mount.text, newline ∉ line := by
    intro line hline
    obtain ⟨mount, -, rfl⟩ := List.mem_map.mp hline
    exact mount.text_oneLine
  rw [contentOf, linesOf_flatMap hlines, List.map_map]
  apply List.map_congr_left
  intro mount _
  exact mount.stripCarriageReturn_text

/-- The mounts that are to be opened. -/
def Kept (baseDir : Path) (mount : Mount) : Prop :=
  mount.fstype ∉ skipFstypes ∧ pathStartsWith mount.mountPoint baseDir = false

instance (baseDir : Path) : DecidablePred (Kept baseDir) := fun _ =>
  inferInstanceAs (Decidable (_ ∧ _))

/-- What is to be opened for a mount. -/
def asked (baseDir : Path) (mount : Mount) : List Path :=
  if Kept baseDir mount then [mount.mountPoint] else []

/-- What is opened for a line. -/
def opened (baseDir : Path) (line : Bytes) : List Path := (target baseDir line).toList

/-- The lines that are still to be read, and for each line that was read the paths
that were opened. -/
structure Host where
  unread : List Bytes
  rounds : List (List Path)

def Host.openAt (host : Host) (path : Path) : Host :=
  { host with rounds := host.rounds.modifyLast (· ++ [path]) }

/-- The lines are read without errors; any other call may fail. -/
def listing : Kernel linux Host
  | host, .nextLine _, .ok (some line), host' =>
      ∃ rest, host.unread = line :: rest ∧ host' = ⟨rest, host.rounds ++ [[]]⟩
  | host, .nextLine _, .ok none, host' => host.unread = [] ∧ host' = host
  | _, .nextLine _, .error _, _ => False
  | host, .openTree .cwd path, _, host' => host' = host.openAt path
  | host, _, _, host' => host' = host

section Rounds

variable {baseDir : Path}

theorem idmapTree_wp (usernsFd : NsId) (path : Path) (tree : Fd) (host : Host) :
    (idmapTree usernsFd path tree).wp listing (fun _ _ => True)
      (fun o host' => o = .value () ∧ host' = host) host := by
  refine ⟨trivial, ?_⟩
  rintro (e | _) host' answer
  · exact ⟨rfl, answer⟩
  · obtain rfl : host' = host := answer
    exact ⟨trivial, fun _ host'' answer => ⟨rfl, answer⟩⟩

theorem idmapAt_wp (usernsFd : NsId) (path : Path) (host : Host) :
    (idmapAt usernsFd path).wp listing (fun _ _ => True)
      (fun o host' => o = .value () ∧ host' = host.openAt path) host := by
  refine ⟨trivial, ?_⟩
  rintro (e | tree) host' answer
  · exact ⟨rfl, answer⟩
  · obtain rfl : host' = host.openAt path := answer
    show ((idmapTree usernsFd path tree).bind _).wp _ _ _ _
    refine Program.wp_seq (idmapTree_wp usernsFd path tree _) fun o host'' ho => ?_
    obtain ⟨rfl, rfl⟩ := ho
    exact ⟨trivial, fun _ host''' answer => ⟨rfl, answer⟩⟩

theorem idmapLine_wp (usernsFd : NsId) (line : Bytes) (unread : List Bytes)
    (rounds : List (List Path)) :
    (idmapLine usernsFd baseDir line).wp listing (fun _ _ => True)
      (fun o host' => o = .value () ∧ host' = ⟨unread, rounds ++ [opened baseDir line]⟩)
      ⟨unread, rounds ++ [[]]⟩ := by
  rw [idmapLine, opened, target]
  split
  · cases idmappedMountPoint baseDir line with
    | none => exact ⟨rfl, rfl⟩
    | some path =>
        refine Program.wp_post (idmapAt_wp usernsFd path _) fun o host' ho => ?_
        obtain ⟨rfl, rfl⟩ := ho
        refine ⟨rfl, ?_⟩
        rw [Host.openAt, List.modifyLast_concat]
        rfl
  · exact ⟨rfl, rfl⟩

theorem applyIdmappedMounts_wp (usernsFd : NsId) (baseDir : Path) (host : Host) :
    (applyIdmappedMounts usernsFd baseDir).wp listing (fun _ _ => True)
      (fun o host' => o = .value () →
        host'.rounds = host.rounds ++ host.unread.map (opened baseDir)) host := by
  refine ⟨trivial, ?_⟩
  rintro (e | _) host' answer
  · intro h
    cases h
  obtain rfl : host' = host := answer
  -- what was opened and what is still to be opened stay the same list
  refine ⟨fun _ host'' => host''.rounds ++ host''.unread.map (opened baseDir) =
    host'.rounds ++ host'.unread.map (opened baseDir), rfl, fun _ host₁ hloop => ⟨trivial, ?_⟩⟩
  rintro (e | _ | line) host₂ answer
  · exact answer.elim
  · obtain ⟨hunread, rfl⟩ := answer
    intro _
    rw [← hloop, hunread]
    simp
  · obtain ⟨rest, hunread, rfl⟩ := answer
    show ((idmapLine usernsFd baseDir line).bind _).wp _ _ _ _
    refine Program.wp_seq (idmapLine_wp usernsFd line rest host₁.rounds) fun o host₃ ho => ?_
    obtain ⟨rfl, rfl⟩ := ho
    show _ ++ _ = _
    rw [← hloop, hunread, List.map_cons, List.append_assoc]
    rfl

end Rounds

def OneWord (text : Bytes) : Prop := text ≠ [] ∧ Unbroken text

theorem oneWord_escape {text : Bytes} (hne : text ≠ []) (h : ∀ b ∈ text, Graphic b) :
    OneWord (escape mountsEscapes text) :=
  ⟨escape_ne_nil hne, unbroken_escape (unbroken_graphic h)⟩

/-- The device and the type take up the first and the third word, if the mount point
takes up the second. -/
def Mount.Aligned (mount : Mount) : Prop :=
  OneWord (escape mountsEscapes mount.device) ∧ OneWord (escape mountsEscapes mount.fstype)

/-- The line of a mount that is to be opened names its mount point. -/
structure ShownRight (mount : Mount) : Prop where
  utf8 : isUtf8 mount.text = true
  point : mount.Aligned → Unbroken mount.mountPoint ∧ Unescaped mountsEscapes mount.mountPoint
  shifted : ¬mount.Aligned → ∃ fstype, mount.Shows mount.mountPoint fstype ∧ fstype ∉ skipFstypes

/-- The line of a mount that is not to be opened is passed over. -/
structure PassedOver (baseDir : Path) (mount : Mount) : Prop where
  point : mount.Aligned → Unbroken mount.mountPoint →
    mount.fstype ∈ skipFstypes ∨ Unescaped mountsEscapes baseDir
  shifted : ¬(mount.Aligned ∧ Unbroken mount.mountPoint) → ∀ point fstype,
    mount.Shows point fstype → fstype ∈ skipFstypes ∨ pathStartsWith point baseDir = true

def Legible (baseDir : Path) (mount : Mount) : Prop :=
  if Kept baseDir mount then ShownRight mount
  else isUtf8 mount.text = true → PassedOver baseDir mount

/-- A path is opened when a line is read. -/
structure ReadAs (baseDir : Path) (mount : Mount) (path : Path) : Prop where
  utf8 : isUtf8 mount.text = true
  shows : ∃ fstype, mount.Shows path fstype ∧ fstype ∉ skipFstypes
  outside : pathStartsWith path baseDir = false

section Words

variable {baseDir : Path} {mount : Mount}

theorem unescaped_skipFstypes : ∀ fstype ∈ skipFstypes, Unescaped mountsEscapes fstype := by
  decide +kernel

theorem escape_mem_skipFstypes (fstype : Bytes) :
    escape mountsEscapes fstype ∈ skipFstypes ↔ fstype ∈ skipFstypes := by
  constructor
  · intro h
    have hsame := (escape_eq_iff (unescaped_skipFstypes _ h) fstype).mp rfl
    rwa [← hsame] at h
  · intro h
    rwa [(unescaped_skipFstypes _ h).escape_eq]

theorem words_of_aligned (h : mount.Aligned) : ∃ rest, mount.words =
    escape mountsEscapes mount.device ::
      (splitWhitespace (escape mountsEscapes mount.mountPoint) ++
        escape mountsEscapes mount.fstype :: rest) := by
  obtain ⟨⟨hdevice, hdevice'⟩, hfstype, hfstype'⟩ := h
  refine ⟨[mount.options, ascii "0", ascii "0"].flatMap splitWhitespace, ?_⟩
  simp only [Mount.words, Mount.columns, Mount.front, List.cons_append, List.nil_append,
    List.flatMap_cons, splitWhitespace_unbroken hdevice hdevice',
    splitWhitespace_unbroken hfstype hfstype']

theorem shows_of_unbroken (h : mount.Aligned) (hpoint : Unbroken mount.mountPoint)
    (point : Path) (fstype : Bytes) : mount.Shows point fstype ↔
      point = escape mountsEscapes mount.mountPoint ∧
        fstype = escape mountsEscapes mount.fstype := by
  have hne : mount.mountPoint ≠ [] := by
    intro hnil
    have habsolute := mount.absolute
    rw [hnil] at habsolute
    cases habsolute
  obtain ⟨rest, hwords⟩ := words_of_aligned h
  rw [splitWhitespace_unbroken (escape_ne_nil hne) (unbroken_escape hpoint)] at hwords
  rw [Mount.Shows, hwords]
  simp [eq_comm]

theorem shows_mountPoint_iff (h : mount.Aligned) :
    (∃ fstype, mount.Shows mount.mountPoint fstype ∧ fstype ∉ skipFstypes) ↔
      Unbroken mount.mountPoint ∧ Unescaped mountsEscapes mount.mountPoint ∧
        mount.fstype ∉ skipFstypes := by
  have hslash : Graphic slash := by decide
  obtain ⟨path, hpath⟩ := List.head?_eq_some_iff.mp mount.absolute
  constructor
  · rintro ⟨fstype, hshows, hfstype⟩
    have hunbroken : Unbroken mount.mountPoint := by
      obtain ⟨first, rest, hfirst⟩ := hshows
      obtain ⟨rest', hwords⟩ := words_of_aligned h
      obtain ⟨more, words, hmore, hsplit⟩ :=
        splitWhitespace_first hslash (escape mountsEscapes path)
      rw [hpath, escape_cons_unescaped mountsEscapes.slash_notMem, hsplit, hfirst] at hwords
      obtain ⟨-, hpoint, -⟩ := by simpa using hwords
      rw [hpoint]
      exact hmore
    obtain ⟨hpoint, rfl⟩ := (shows_of_unbroken h hunbroken _ _).mp hshows
    exact ⟨hunbroken, (escape_eq_self_iff _).mp hpoint.symm,
      fun hmem => hfstype ((escape_mem_skipFstypes _).mpr hmem)⟩
  · rintro ⟨hunbroken, hunescaped, hfstype⟩
    refine ⟨escape mountsEscapes mount.fstype, (shows_of_unbroken h hunbroken _ _).mpr
      ⟨hunescaped.escape_eq.symm, rfl⟩, fun hmem => ?_⟩
    exact hfstype ((escape_mem_skipFstypes _).mp hmem)

theorem legible_of_plain (hutf8 : isUtf8 mount.text = true) (haligned : mount.Aligned)
    (hunbroken : Unbroken mount.mountPoint) (hpoint : Unescaped mountsEscapes mount.mountPoint)
    (hbase : Unescaped mountsEscapes baseDir) : Legible baseDir mount := by
  rw [Legible]
  split
  · exact ⟨hutf8, fun _ => ⟨hunbroken, hpoint⟩, fun hnot => absurd haligned hnot⟩
  · exact fun _ => ⟨fun _ _ => .inr hbase, fun hnot => absurd ⟨haligned, hunbroken⟩ hnot⟩

theorem readAs_unique {path path' : Path} (h : ReadAs baseDir mount path)
    (h' : ReadAs baseDir mount path') : path = path' := by
  obtain ⟨_, ⟨first, rest, hwords⟩, -⟩ := h.shows
  obtain ⟨_, ⟨first', rest', hwords'⟩, -⟩ := h'.shows
  rw [hwords] at hwords'
  exact (List.cons.inj (List.cons.inj hwords').2).1

theorem shownRight_iff (hkept : Kept baseDir mount) :
    ShownRight mount ↔ ReadAs baseDir mount mount.mountPoint := by
  constructor
  · rintro ⟨hutf8, hpoint, hshifted⟩
    refine ⟨hutf8, ?_, hkept.2⟩
    by_cases haligned : mount.Aligned
    · obtain ⟨hunbroken, hunescaped⟩ := hpoint haligned
      exact (shows_mountPoint_iff haligned).mpr ⟨hunbroken, hunescaped, hkept.1⟩
    · exact hshifted haligned
  · rintro ⟨hutf8, hshows, -⟩
    refine ⟨hutf8, fun haligned => ?_, fun _ => hshows⟩
    obtain ⟨hunbroken, hunescaped, -⟩ := (shows_mountPoint_iff haligned).mp hshows
    exact ⟨hunbroken, hunescaped⟩

theorem passedOver_iff (hkept : ¬Kept baseDir mount) : PassedOver baseDir mount ↔
    ∀ point fstype, mount.Shows point fstype →
      fstype ∈ skipFstypes ∨ pathStartsWith point baseDir = true := by
  constructor
  · rintro ⟨hpoint, hshifted⟩ point fstype hshows
    by_cases halone : mount.Aligned ∧ Unbroken mount.mountPoint
    · obtain ⟨haligned, hunbroken⟩ := halone
      obtain ⟨rfl, rfl⟩ := (shows_of_unbroken haligned hunbroken _ _).mp hshows
      rw [escape_mem_skipFstypes]
      by_cases hskipped : mount.fstype ∈ skipFstypes
      · exact .inl hskipped
      · have hbelow : pathStartsWith mount.mountPoint baseDir = true := by
          simpa [Kept, hskipped] using hkept
        have hunescaped := (hpoint haligned hunbroken).resolve_left hskipped
        exact .inr ((pathStartsWith_escape_iff hbelow).mpr hunescaped)
    · exact hshifted halone point fstype hshows
  · intro h
    refine ⟨fun haligned hunbroken => ?_, fun _ => h⟩
    have hshown := h _ _ ((shows_of_unbroken haligned hunbroken _ _).mpr ⟨rfl, rfl⟩)
    rw [escape_mem_skipFstypes] at hshown
    by_cases hskipped : mount.fstype ∈ skipFstypes
    · exact .inl hskipped
    · have hbelow : pathStartsWith mount.mountPoint baseDir = true := by
        simpa [Kept, hskipped] using hkept
      exact .inr ((pathStartsWith_escape_iff hbelow).mp (hshown.resolve_left hskipped))

theorem legible_iff (baseDir : Path) (mount : Mount) : Legible baseDir mount ↔
    ∀ path, ReadAs baseDir mount path ↔ Kept baseDir mount ∧ mount.mountPoint = path := by
  rw [Legible]
  split
  · next hkept =>
      rw [shownRight_iff hkept]
      constructor
      · intro h path
        constructor
        · exact fun hread => ⟨hkept, readAs_unique h hread⟩
        · rintro ⟨-, rfl⟩
          exact h
      · exact fun h => (h mount.mountPoint).mpr ⟨hkept, rfl⟩
  · next hkept =>
      rw [passedOver_iff hkept]
      constructor
      · intro h path
        refine iff_of_false ?_ fun hmount => hkept hmount.1
        rintro ⟨hutf8, ⟨fstype, hshows, hfstype⟩, houtside⟩
        have hbelow := (h hutf8 path fstype hshows).resolve_left hfstype
        exact absurd hbelow (by simp [houtside])
      · intro h hutf8 point fstype hshows
        by_cases hskipped : fstype ∈ skipFstypes
        · exact .inl hskipped
        · refine .inr (Bool.not_eq_false _ |>.mp fun houtside => ?_)
          exact hkept ((h point).mp ⟨hutf8, ⟨fstype, hshows, hskipped⟩, houtside⟩).1

theorem idmappedMountPoint_eq_some_iff (mount : Mount) (path : Path) :
    idmappedMountPoint baseDir mount.text = some path ↔
      (∃ fstype, mount.Shows path fstype ∧ fstype ∉ skipFstypes) ∧
        pathStartsWith path baseDir = false := by
  rw [idmappedMountPoint, mount.splitWhitespace_text]
  constructor
  · intro h
    split at h
    · next first point fstype rest hwords =>
        split at h
        · cases h
        · next hkept =>
            obtain rfl := Option.some.inj h
            obtain ⟨hfstype, hbelow⟩ := not_or.mp hkept
            exact ⟨⟨fstype, ⟨first, rest, hwords⟩, hfstype⟩, Bool.not_eq_true _ |>.mp hbelow⟩
    · cases h
  · rintro ⟨⟨fstype, ⟨first, rest, hwords⟩, hfstype⟩, houtside⟩
    have hkept : ¬(fstype ∈ skipFstypes ∨ pathStartsWith path baseDir = true) := by
      simp [hfstype, houtside]
    rw [hwords]
    exact if_neg hkept

theorem mem_opened (mount : Mount) (path : Path) :
    path ∈ opened baseDir mount.text ↔ ReadAs baseDir mount path := by
  rw [opened, Option.mem_toList, target]
  constructor
  · intro h
    split at h
    · next hutf8 =>
        obtain ⟨hshows, houtside⟩ := (idmappedMountPoint_eq_some_iff mount path).mp h
        exact ⟨hutf8, hshows, houtside⟩
    · cases h
  · rintro ⟨hutf8, hshows, houtside⟩
    rw [if_pos hutf8]
    exact (idmappedMountPoint_eq_some_iff mount path).mpr ⟨hshows, houtside⟩

theorem mem_asked (mount : Mount) (path : Path) :
    path ∈ asked baseDir mount ↔ Kept baseDir mount ∧ mount.mountPoint = path := by
  rw [asked]
  split
  · next hkept => simp [hkept, eq_comm]
  · next hkept => simp [hkept]

theorem opened_eq_asked_iff (mount : Mount) :
    opened baseDir mount.text = asked baseDir mount ↔ Legible baseDir mount := by
  rw [legible_iff]
  constructor
  · intro h path
    rw [← mem_opened, h, mem_asked]
  · intro h
    have hmem : ∀ path, path ∈ opened baseDir mount.text ↔ path ∈ asked baseDir mount := by
      intro path
      rw [mem_opened, h, mem_asked]
    rw [opened, asked] at hmem ⊢
    split at hmem
    · next hkept =>
        have hsome : target baseDir mount.text = some mount.mountPoint := by
          simpa using hmem mount.mountPoint
        rw [hsome, if_pos hkept]
        rfl
    · next hkept =>
        have hnone : target baseDir mount.text = none := by
          simpa [Option.eq_none_iff_forall_ne_some] using hmem
        rw [hnone, if_neg hkept]
        rfl

end Words

/-- The paths that are opened are the mount points of the mounts that are to be. -/
def OpensRight (baseDir : Path) (mounts : List Mount) (host : Host) : Prop :=
  ∀ path, path ∈ host.rounds.flatten ↔
    ∃ mount ∈ mounts, Kept baseDir mount ∧ mount.mountPoint = path

/-- Every line is legible, or other mounts happen to make up for it. -/
structure MadeUp (baseDir : Path) (mounts : List Mount) : Prop where
  missed : ∀ mount ∈ mounts, ¬Legible baseDir mount → Kept baseDir mount →
    ∃ other ∈ mounts, ReadAs baseDir other mount.mountPoint
  extra : ∀ mount ∈ mounts, ¬Legible baseDir mount → ∀ path, ReadAs baseDir mount path →
    ∃ other ∈ mounts, Kept baseDir other ∧ other.mountPoint = path

theorem madeUp_of_legible {baseDir : Path} {mounts : List Mount}
    (h : ∀ mount ∈ mounts, Legible baseDir mount) : MadeUp baseDir mounts :=
  ⟨fun mount hmount hnot => absurd (h mount hmount) hnot,
    fun mount hmount hnot => absurd (h mount hmount) hnot⟩

theorem opensRight_iff {baseDir : Path} {mounts : List Mount} {host : Host}
    (hrounds : host.rounds = mounts.map fun mount => opened baseDir mount.text) :
    OpensRight baseDir mounts host ↔ MadeUp baseDir mounts := by
  have hopened : ∀ path, path ∈ host.rounds.flatten ↔
      ∃ mount ∈ mounts, ReadAs baseDir mount path := by
    intro path
    rw [hrounds]
    simp [mem_opened]
  constructor
  · intro h
    constructor
    · intro mount hmount _ hkept
      exact (hopened _).mp ((h _).mpr ⟨mount, hmount, hkept, rfl⟩)
    · intro mount hmount _ path hread
      exact (h path).mp ((hopened path).mpr ⟨mount, hmount, hread⟩)
  · rintro ⟨hmissed, hextra⟩ path
    rw [hopened]
    constructor
    · rintro ⟨mount, hmount, hread⟩
      by_cases hlegible : Legible baseDir mount
      · exact ⟨mount, hmount, ((legible_iff baseDir mount).mp hlegible path).mp hread⟩
      · exact hextra mount hmount hlegible path hread
    · rintro ⟨mount, hmount, hkept, rfl⟩
      by_cases hlegible : Legible baseDir mount
      · exact ⟨mount, hmount, ((legible_iff baseDir mount).mp hlegible _).mpr ⟨hkept, rfl⟩⟩
      · exact hmissed mount hmount hlegible hkept

/-- For which mounts the right paths are opened, all in all and line by line. -/
theorem applyIdmappedMounts_opens_iff (mounts : List Mount) (usernsFd : NsId) (baseDir : Path)
    {host : Host} (run : (applyIdmappedMounts usernsFd baseDir).Runs listing
      ⟨linesOf (contentOf mounts), []⟩ (.value ()) host) :
    (OpensRight baseDir mounts host ↔ MadeUp baseDir mounts) ∧
      (host.rounds = mounts.map (asked baseDir) ↔ ∀ mount ∈ mounts, Legible baseDir mount) := by
  have hrounds : host.rounds = mounts.map fun mount => opened baseDir mount.text := by
    have hend := run.of_wp (applyIdmappedMounts_wp usernsFd baseDir _) rfl
    rw [linesOf_contentOf, List.map_map, List.nil_append] at hend
    exact hend
  refine ⟨opensRight_iff hrounds, ?_⟩
  rw [hrounds, List.map_inj_left]
  constructor
  · intro h mount hmount
    exact (opened_eq_asked_iff mount).mp (h mount hmount)
  · intro h mount hmount
    exact (opened_eq_asked_iff mount).mpr (h mount hmount)

/-- The answers of a kernel that opens no tree. -/
def Host.answer (host : Host) : (c : Syscall) → c.Answer × Host
  | .openFile _ _ => (.ok (), host)
  | .nextLine _ =>
      match host.unread with
      | [] => (.ok none, host)
      | line :: rest => (.ok (some line), ⟨rest, host.rounds ++ [[]]⟩)
  | .openTree .cwd path => (.error .perm, host.openAt path)
  | c => (c.refused, host)

theorem Host.listing_answer (host : Host) (c : Syscall) :
    listing host c (host.answer c).1 (host.answer c).2 := by
  cases c with
  | nextLine file =>
      rw [answer]
      split
      · next hunread => exact ⟨hunread, rfl⟩
      · next line rest hunread => exact ⟨rest, hunread, rfl⟩
  | openTree base path => cases base <;> exact rfl
  | _ => exact rfl

def rootMount : Mount :=
  ⟨ascii "/dev/sda1", ascii "/", ascii "ext4", ascii "rw", by decide, by decide⟩

def procMount : Mount :=
  ⟨ascii "proc", ascii "/proc", ascii "proc", ascii "rw", by decide, by decide⟩

theorem applyIdmappedMounts_opens_root :
    ∃ host, (applyIdmappedMounts 1 basePath).Runs listing
        ⟨linesOf (contentOf [rootMount, procMount]), []⟩ (.value ()) host ∧
      OpensRight basePath [rootMount, procMount] host ∧ host.rounds = [[ascii "/"], []] := by
  have hplay : ((applyIdmappedMounts 1 basePath).play Host.answer 4
      ⟨linesOf (contentOf [rootMount, procMount]), []⟩).any
        (fun r => decide (r.1 = .value ())) = true := by
    decide +kernel
  obtain ⟨⟨o, host⟩, hrun, hend⟩ := (Option.any_eq_true _ _).mp hplay
  obtain rfl := of_decide_eq_true hend
  obtain ⟨hset, hlines⟩ := applyIdmappedMounts_opens_iff [rootMount, procMount] 1 basePath
    (.of_play Host.listing_answer hrun)
  have hlegible : ∀ mount ∈ [rootMount, procMount], Legible basePath mount := by
    intro mount hmount
    rcases List.mem_pair.mp hmount with rfl | rfl
    · exact legible_of_plain (by decide +kernel)
        ⟨oneWord_escape (by decide) (by decide +kernel),
          oneWord_escape (by decide) (by decide +kernel)⟩
        (unbroken_graphic (by decide +kernel)) (by decide) (by decide)
    · exact legible_of_plain (by decide +kernel)
        ⟨oneWord_escape (by decide) (by decide +kernel),
          oneWord_escape (by decide) (by decide +kernel)⟩
        (unbroken_graphic (by decide +kernel)) (by decide) (by decide)
  exact ⟨host, .of_play Host.listing_answer hrun, hset.mpr (madeUp_of_legible hlegible),
    hlines.mpr hlegible⟩

def diskMount : Mount :=
  ⟨ascii "/dev/sdb1", ascii "/mnt/my disk", ascii "ext4", ascii "rw", by decide, by decide⟩

/-- The path that is opened is one that need not exist. -/
theorem applyIdmappedMounts_opens_escaped :
    ∃ host, (applyIdmappedMounts 1 basePath).Runs listing
        ⟨linesOf (contentOf [diskMount]), []⟩ (.value ()) host ∧
      host.rounds = [[ascii "/mnt/my\\040disk"]] ∧ ¬OpensRight basePath [diskMount] host := by
  have hplay : ((applyIdmappedMounts 1 basePath).play Host.answer 4
      ⟨linesOf (contentOf [diskMount]), []⟩).any (fun r => decide (r.1 = .value ()) &&
        decide (r.2.rounds = [[ascii "/mnt/my\\040disk"]])) = true := by
    decide +kernel
  obtain ⟨⟨o, host⟩, hrun, hend⟩ := (Option.any_eq_true _ _).mp hplay
  rw [Bool.and_eq_true, decide_eq_true_eq, decide_eq_true_eq] at hend
  obtain ⟨rfl, hrounds⟩ := hend
  refine ⟨host, .of_play Host.listing_answer hrun, hrounds, fun h => ?_⟩
  have hopened := (h diskMount.mountPoint).mpr ⟨diskMount, by simp, by decide, rfl⟩
  rw [hrounds] at hopened
  revert hopened
  decide

end Cntr.RenderedMounts
