import Cntr.IdMaps
import Cntr.ProcessStatus
import Cntr.ProfileLabels

/-!
`/proc/<pid>/status` as the kernel renders it, and what `status` makes of it.
-/

namespace Cntr.StatusFiles

open Cntr.ByteText
open Cntr.CallTree
open Cntr.SystemCalls
open Cntr.ApparmorProfile
open Cntr.CgroupManagers (decodeLine)
open Cntr.ContainerSetup
open Cntr.IdMaps
open Cntr.IdTranslation
open Cntr.NumberParsing
open Cntr.ProcessStatus
open Cntr.ProfileLabels
open Cntr.TextSplitting
open Cntr.WhiteSpaceText

/-- A byte of a process name in the first line. -/
def escapeByte (b : UInt8) : Bytes :=
  if b = newline then ascii "\\n" else if b = 92 then ascii "\\\\" else [b]

structure StatusField where
  key : Bytes
  value : Bytes
  key_ne : key ≠ ascii "CapEff"
  key_noTab : tab ∉ key
  key_oneLine : newline ∉ key
  value_oneLine : newline ∉ value

/-- A line: what stands before the first tab, and what stands after it. -/
def statusLine (head rest : Bytes) : Bytes := head ++ tab :: rest

def StatusField.line (field : StatusField) : Bytes :=
  statusLine (field.key ++ [colon]) field.value

structure StatusFile where
  comm : Bytes
  comm_noNul : 0 ∉ comm
  front : List StatusField
  capEff : UInt64
  back : List StatusField

namespace StatusFile

def nameLine (file : StatusFile) : Bytes :=
  statusLine (ascii "Name:") (file.comm.flatMap escapeByte)

def capEffLine (file : StatusFile) : Bytes := statusLine (ascii "CapEff:") (hexMask file.capEff)

def lines (file : StatusFile) : List Bytes :=
  file.nameLine :: file.front.map StatusField.line ++
    file.capEffLine :: file.back.map StatusField.line

def content (file : StatusFile) : Bytes := file.lines.flatMap (· ++ [newline])

end StatusFile

theorem splitOn_statusLine {head : Bytes} (hhead : tab ∉ head) (rest : Bytes) :
    (statusLine head rest).splitOn tab = head :: rest.splitOn tab := by
  have hnot : ∀ b ∈ head, (b == tab) = false := by
    intro b hb
    rw [beq_eq_false_iff_ne]
    rintro rfl
    exact hhead hb
  exact List.splitOnP_append_cons_of_forall_mem hnot tab (beq_self_eq_true tab) rest

theorem stripCarriageReturn_statusLine (head rest : Bytes) :
    stripCarriageReturn (statusLine head rest) = statusLine head (stripCarriageReturn rest) := by
  rw [statusLine, stripCarriageReturn_append head (List.cons_ne_nil tab rest),
    stripCarriageReturn_cons (by decide)]
  rfl

/-- A line that the loop passes over. -/
def Ignored (line : Bytes) : Prop :=
  ∃ head rest, line = statusLine head rest ∧ tab ∉ head ∧ head ≠ ascii "CapEff:"

section Lines

variable {path : Path} {effectiveCaps : Option UInt64}

theorem columns_length (head rest : Bytes) : ¬(head :: rest.splitOn tab).length < 2 := by
  have hne : rest.splitOn tab ≠ [] := List.splitOnP_ne_nil (· == tab) rest
  have hpos := List.length_pos_iff.mpr hne
  rw [List.length_cons]
  omega

theorem Ignored.scanLine {line : Bytes} (h : Ignored line) :
    scanLine path effectiveCaps line = .ok effectiveCaps := by
  obtain ⟨head, rest, rfl, hhead, hne⟩ := h
  rw [ProcessStatus.scanLine, splitOn_statusLine hhead]
  simp only [columns_length, if_false]
  exact if_neg hne

theorem mem_hexMask {b : UInt8} {mask : UInt64} (h : b ∈ hexMask mask) :
    48 ≤ b.toNat ∧ b.toNat < 128 := by
  rcases List.mem_append.mp h with h | h
  · rw [List.eq_of_mem_replicate h]
    exact digitByte_bounds (by decide)
  · exact digit_of_mem_numeral (by decide) (by decide) h

theorem hexMask_not_mem {b : UInt8} (hb : b.toNat < 48) (mask : UInt64) : b ∉ hexMask mask := by
  intro h
  have := (mem_hexMask h).1
  omega

theorem scanLine_capEff (mask : UInt64) :
    scanLine path effectiveCaps (statusLine (ascii "CapEff:") (hexMask mask)) =
      .ok (some mask) := by
  have hsplit : (hexMask mask).splitOn tab = [hexMask mask] := by
    apply List.splitOnP_eq_singleton
    intro b hb
    rw [beq_eq_false_iff_ne]
    rintro rfl
    exact hexMask_not_mem (by decide) mask hb
  rw [scanLine, splitOn_statusLine (by decide), hsplit]
  simp only [List.length_cons, List.length_nil, List.getLast?_cons_cons, List.getLast?_singleton]
  have hhead : [ascii "CapEff:", hexMask mask].getD 0 [] = ascii "CapEff:" := rfl
  rw [if_neg (by decide), if_pos hhead, parseCapability, parseU64_hexMask]
  rfl

/-- Lines that are passed over leave the mask as it was, if they are UTF-8. -/
theorem scanItems_ignored {lines : List Bytes} (h : ∀ line ∈ lines, Ignored line)
    (hutf8 : ∀ line ∈ lines, isUtf8 line = true) (items : List (Except IoError Bytes)) :
    scanItems path effectiveCaps (lines.map .ok ++ items) =
      scanItems path effectiveCaps items := by
  induction lines with
  | nil => rfl
  | cons line lines ih =>
      have hrest := ih (fun l hl => h l (List.mem_cons_of_mem _ hl))
        fun l hl => hutf8 l (List.mem_cons_of_mem _ hl)
      rw [List.map_cons, List.cons_append, scanItems, decodeLine, if_pos (hutf8 line (by simp))]
      simp only [(h line (by simp)).scanLine]
      exact hrest

theorem scanItems_undecodable {lines : List Bytes} {line : Bytes} (hmem : line ∈ lines)
    (hutf8 : isUtf8 line = false) :
    ∃ e, scanItems path effectiveCaps (lines.map .ok) = .error e := by
  induction lines generalizing effectiveCaps with
  | nil => cases hmem
  | cons first lines ih =>
      rw [List.map_cons, scanItems]
      rcases List.mem_cons.mp hmem with rfl | hmem
      · rw [decodeLine, hutf8]
        exact ⟨_, rfl⟩
      · cases decodeLine (.ok first) with
        | error source => exact ⟨_, rfl⟩
        | ok line' =>
            cases hscan : ProcessStatus.scanLine path effectiveCaps line' with
            | error e => exact ⟨e, by simp only [hscan]⟩
            | ok caps =>
                obtain ⟨e, he⟩ : ∃ e, scanItems path caps (lines.map .ok) = .error e := ih hmem
                exact ⟨e, by simp only [hscan, he]⟩

end Lines

namespace StatusFile

variable (file : StatusFile)

theorem ignored_nameLine : Ignored (stripCarriageReturn file.nameLine) := by
  rw [nameLine, stripCarriageReturn_statusLine]
  exact ⟨_, _, rfl, by decide, by decide⟩

theorem ignored_field (field : StatusField) : Ignored (stripCarriageReturn field.line) := by
  rw [StatusField.line, stripCarriageReturn_statusLine]
  refine ⟨_, _, rfl, ?_, fun hkey => ?_⟩
  · rw [List.mem_append, List.mem_singleton]
    rintro (h | h)
    · exact field.key_noTab h
    · exact absurd h (by decide)
  · have hcapEff : ascii "CapEff:" = ascii "CapEff" ++ [colon] := by decide
    rw [hcapEff] at hkey
    exact field.key_ne (List.append_cancel_right hkey)

theorem capEffLine_plain : stripCarriageReturn file.capEffLine = file.capEffLine := by
  rw [capEffLine, stripCarriageReturn_statusLine, stripCarriageReturn, if_neg]
  intro hlast
  exact hexMask_not_mem (by decide) file.capEff (List.mem_of_getLast? hlast)

theorem oneLine {line : Bytes} (h : line ∈ file.lines) : newline ∉ line := by
  have hstatus : ∀ {head rest : Bytes}, newline ∉ head → newline ∉ rest →
      newline ∉ statusLine head rest := by
    intro head rest hhead hrest hmem
    rcases List.mem_append.mp hmem with hmem | hmem
    · exact hhead hmem
    · rcases List.mem_cons.mp hmem with hmem | hmem
      · exact absurd hmem (by decide)
      · exact hrest hmem
  have hfield : ∀ field : StatusField, newline ∉ field.line := by
    intro field
    apply hstatus _ field.value_oneLine
    rw [List.mem_append, List.mem_singleton]
    rintro (h | h)
    · exact field.key_oneLine h
    · exact absurd h (by decide)
  have hescape : newline ∉ file.comm.flatMap escapeByte := by
    rw [List.mem_flatMap]
    rintro ⟨b, -, hb⟩
    rw [escapeByte] at hb
    split at hb
    · exact absurd hb (by decide)
    split at hb
    · exact absurd hb (by decide)
    · next hne _ => exact hne (List.mem_singleton.mp hb).symm
  rw [lines, List.cons_append, List.mem_cons, List.mem_append, List.mem_cons, List.mem_map,
    List.mem_map] at h
  obtain rfl | ⟨field, -, rfl⟩ | rfl | ⟨field, -, rfl⟩ := h
  · exact hstatus (by decide) hescape
  · exact hfield field
  · exact hstatus (by decide) (hexMask_not_mem (by decide) file.capEff)
  · exact hfield field

def readLines : List Bytes := linesOf file.content

theorem readLines_eq :
    file.readLines =
      (stripCarriageReturn file.nameLine ::
        file.front.map fun field => stripCarriageReturn field.line) ++
      file.capEffLine :: file.back.map fun field => stripCarriageReturn field.line := by
  rw [readLines, content, linesOf_flatMap fun _ => file.oneLine, lines]
  simp only [List.map_append, List.map_cons, List.map_map, capEffLine_plain]
  rfl

theorem effectiveMask_utf8 (path : Path) (hutf8 : ∀ line ∈ file.readLines, isUtf8 line = true) :
    effectiveMask path (file.readLines.map .ok) = .ok file.capEff := by
  rw [readLines_eq] at hutf8
  simp only [List.mem_append, List.mem_cons] at hutf8
  have hfront : ∀ line ∈ stripCarriageReturn file.nameLine ::
      file.front.map fun field => stripCarriageReturn field.line, Ignored line := by
    intro line hline
    rcases List.mem_cons.mp hline with rfl | hline
    · exact file.ignored_nameLine
    · obtain ⟨field, -, rfl⟩ := List.mem_map.mp hline
      exact ignored_field field
  have hback : ∀ line ∈ file.back.map fun field => stripCarriageReturn field.line,
      Ignored line := by
    intro line hline
    obtain ⟨field, -, rfl⟩ := List.mem_map.mp hline
    exact ignored_field field
  have hrest : scanItems path (some file.capEff) ((file.back.map fun field =>
      stripCarriageReturn field.line).map .ok) = scanItems path (some file.capEff) [] := by
    rw [← scanItems_ignored hback (fun line hline => hutf8 line (.inr (.inr hline))) [],
      List.append_nil]
  rw [effectiveMask, readLines_eq, List.map_append,
    scanItems_ignored hfront fun line hline => hutf8 line (.inl (List.mem_cons.mp hline)),
    List.map_cons, scanItems, decodeLine, if_pos (hutf8 _ (.inr (.inl rfl))), capEffLine]
  simp only [scanLine_capEff, hrest]
  rfl

theorem effectiveMask_undecodable (path : Path) {line : Bytes} (hmem : line ∈ file.readLines)
    (hutf8 : isUtf8 line = false) :
    ∃ e, effectiveMask path (file.readLines.map .ok) = .error e := by
  obtain ⟨e, he⟩ : ∃ e, scanItems path none (file.readLines.map .ok) = .error e :=
    scanItems_undecodable hmem hutf8
  exact ⟨e, by rw [effectiveMask, he]⟩

end StatusFile

section Reading

variable {answer : (c : Syscall) → c.Answer} {pid : Pid}

/-- The attributes of AppArmor can be read, if AppArmor is enabled. -/
inductive ApparmorReadable (answer : (c : Syscall) → c.Answer) (pid : Pid) : Prop where
  | absent (h : answer (.openFile enabledPath .read) = .error .notFound)
  | disabled (contents : Bytes) (hopen : answer (.openFile enabledPath .read) = .ok ())
      (hread : answer (.readToEnd (.atPath enabledPath .read)) = .ok contents)
      (hutf8 : isUtf8 contents = true) (hne : contents ≠ ascii "Y\n")
  | enabled (target own : Bytes) (h : Reports answer pid target own)
      (htarget : isUtf8 target = true) (hown : isUtf8 own = true)

theorem isApparmorEnabled_yields_false
    (h : answer (.openFile enabledPath .read) = .error .notFound ∨
      ∃ contents, answer (.openFile enabledPath .read) = .ok () ∧
        answer (.readToEnd (.atPath enabledPath .read)) = .ok contents ∧
        isUtf8 contents = true ∧ contents ≠ ascii "Y\n") :
    isApparmorEnabled.Yields (S := linux) answer (.value false) := by
  obtain h | ⟨contents, hopen, hread, hutf8, hne⟩ := h
  · exact .reply (S := linux) h (.stop _)
  · refine .reply (S := linux) hopen (.reply (S := linux) hread ?_)
    rw [decodeText_ok hutf8]
    have hvalue : decide (contents = ascii "Y\n") = false := by simpa using hne
    simp only [Program.ofExcept, Program.bind_eq, Program.done_bind, Program.pure_eq, hvalue]
    exact .stop _

theorem ApparmorReadable.yields (h : ApparmorReadable answer pid) (apparmorMode : ApparmorMode) :
    ∃ profile, (readProfile pid apparmorMode).Yields (S := linux) answer (.value profile) := by
  have hdisabled : isApparmorEnabled.Yields (S := linux) answer (.value false) →
      (readProfile pid .auto).Yields (S := linux) answer (.value none) :=
    fun hfalse => hfalse.bind (.stop _)
  cases apparmorMode with
  | off => exact ⟨none, .stop _⟩
  | auto =>
      cases h with
      | absent h => exact ⟨none, hdisabled (isApparmorEnabled_yields_false (.inl h))⟩
      | disabled contents hopen hread hutf8 hne =>
          exact ⟨none, hdisabled
            (isApparmorEnabled_yields_false (.inr ⟨contents, hopen, hread, hutf8, hne⟩))⟩
      | enabled target own h htarget hown =>
          exact ⟨_, readProfile_yields h htarget hown⟩

/-- The file, and everything else that `status` reads, can be read. -/
structure Readable (answer : (c : Syscall) → c.Answer) (pid : Pid) (file : StatusFile) :
    Prop where
  status : answer (.openLines (statusPath (procfsPath answer) pid)) =
    .ok (file.readLines.map .ok)
  lastCap : ∃ lastCap : UInt64, answer (.readToString (lastCapPath (procfsPath answer))) =
    .ok (decimal lastCap.toNat ++ [newline])
  metadata : ∃ metadata, answer (.metadata (procDir (procfsPath answer) pid)) = .ok metadata
  uidMap : ∃ map : MapFile, answer (.readToString (mapPath (procfsPath answer) pid
    (ascii "uid_map"))) = .ok map.text
  gidMap : ∃ map : MapFile, answer (.readToString (mapPath (procfsPath answer) pid
    (ascii "gid_map"))) = .ok map.text
  apparmor : ApparmorReadable answer pid

theorem trim_decimal (n : Nat) : trim (decimal n ++ [newline]) = decimal n := by
  have hne : decimal n ≠ [] := decimal_ne_nil n
  have hlast : trimEnd (decimal n) = decimal n := by
    rw [← List.dropLast_append_getLast hne]
    exact trimEnd_graphic _ (graphic_decimal (List.getLast_mem hne))
  have hfirst : trimStart (decimal n ++ [newline]) = decimal n ++ [newline] := by
    cases htext : decimal n with
    | nil => exact absurd htext hne
    | cons b text =>
        apply trimStart_graphic
        apply graphic_decimal (n := n)
        rw [htext]
        exact List.mem_cons_self
  rw [trim, hfirst, trimEnd_newline, hlast]

theorem readLastCap_yields {lastCap : UInt64}
    (h : answer (.readToString (lastCapPath (procfsPath answer))) =
      .ok (decimal lastCap.toNat ++ [newline])) :
    readLastCap.Yields (S := linux) answer (.value lastCap) := by
  have hutf8 : isUtf8 (decimal lastCap.toNat ++ [newline]) = true := by
    apply isUtf8_append
    · apply isUtf8_of_ascii
      intro b hb
      have := (graphic_decimal hb).2
      omega
    · exact isUtf8_of_all (by decide)
  have hparse : parseLastCap (lastCapPath (procfsPath answer))
      (decimal lastCap.toNat ++ [newline]) = .ok lastCap := by
    rw [parseLastCap, trim_decimal, parseU64_decimal]
    rfl
  refine .bind (Procfs.getPath_yields answer) (.bind (readText_yields h hutf8) ?_)
  rw [← procfsPath, hparse]
  exact .stop _

theorem translateId_map_yields {path : Path} {map : MapFile}
    (h : answer (.readToString path) = .ok map.text) (outerId : UInt32) :
    (translateId path outerId).Yields (S := linux) answer
      (.value (firstInner map.ranges outerId)) := by
  rw [← MapFile.translated_text path map outerId]
  exact translateId_yields h map.isUtf8_text outerId

variable {file : StatusFile}

theorem status_yields (h : Readable answer pid file) (apparmorMode : ApparmorMode)
    (hutf8 : ∀ line ∈ file.readLines, isUtf8 line = true) :
    ∃ processStatus, (status pid apparmorMode).Yields (S := linux) answer (.value processStatus) ∧
      processStatus.effectiveCapabilities = file.capEff.toBitVec := by
  obtain ⟨lastCap, hlastCap⟩ := h.lastCap
  obtain ⟨metadata, hmetadata⟩ := h.metadata
  obtain ⟨uidMap, huid⟩ := h.uidMap
  obtain ⟨gidMap, hgid⟩ := h.gidMap
  obtain ⟨profile, hprofile⟩ := h.apparmor.yields apparmorMode
  have hcaps : (readEffectiveCapabilities (statusPath (procfsPath answer) pid)).Yields
      (S := linux) answer (.value file.capEff) := by
    refine .reply (S := linux) h.status ?_
    simp only [Program.ofExcept, Program.bind_eq, Program.done_bind,
      file.effectiveMask_utf8 _ hutf8]
    exact .stop _
  let processStatus : ProcStatus := ⟨pid, file.capEff.toBitVec, lastCap.toNat,
    (firstInner uidMap.ranges metadata.uid).toNat, (firstInner gidMap.ranges metadata.gid).toNat,
    profile⟩
  refine ⟨processStatus, .bind (Procfs.getPath_yields answer) (.bind hcaps
    (.bind (readLastCap_yields hlastCap) (.bind (Procfs.getPath_yields answer)
      (.reply (S := linux) hmetadata ?_)))), rfl⟩
  refine .bind (.stop _) (.bind (translateId_map_yields huid _)
    (.bind (translateId_map_yields hgid _) (.bind hprofile.mapError ?_)))
  exact .stop _

theorem status_fails (h : answer (.openLines (statusPath (procfsPath answer) pid)) =
      .ok (file.readLines.map .ok)) (apparmorMode : ApparmorMode) {line : Bytes}
    (hmem : line ∈ file.readLines) (hutf8 : isUtf8 line = false) :
    ∃ e, (status pid apparmorMode).Yields (S := linux) answer (.error e) := by
  obtain ⟨e, he⟩ := file.effectiveMask_undecodable (statusPath (procfsPath answer) pid) hmem hutf8
  have hcaps : (readEffectiveCapabilities (statusPath (procfsPath answer) pid)).Yields
      (S := linux) answer (.error e) := by
    refine .reply (S := linux) h ?_
    simp only [Program.ofExcept, Program.bind_eq, Program.done_bind, he]
    exact .stop _
  exact ⟨e, .bind (Procfs.getPath_yields answer) (.bind_error hcaps)⟩

/-- The capabilities are found, whatever the lines say, as long as every line
is UTF-8. -/
theorem status_findsMask_iff (h : Readable answer pid file) (apparmorMode : ApparmorMode) :
    (∃ processStatus,
        (status pid apparmorMode).Yields (S := linux) answer (.value processStatus) ∧
          processStatus.effectiveCapabilities = file.capEff.toBitVec) ↔
      ∀ line ∈ file.readLines, isUtf8 line = true := by
  constructor
  · rintro ⟨processStatus, hstatus, -⟩ line hmem
    by_contra hutf8
    obtain ⟨e, he⟩ := status_fails h.status apparmorMode hmem (by simpa using hutf8)
    obtain ⟨log, hrun⟩ := hstatus []
    cases he.unique hrun
  · exact status_yields h apparmorMode

end Reading

def initialMap : MapFile := ⟨[(kernelPadding, ⟨0, 0, 4294967295, by decide, by decide, by decide⟩)]⟩

/-- A host without AppArmor on which `status` has the given content. -/
def hostWithStatus (file : StatusFile) : (c : Syscall) → c.Answer
  | .openFile _ _ => .error .notFound
  | .openLines _ => .ok (file.readLines.map .ok)
  | .readToString path =>
      .ok (if path = lastCapPath (ascii "/proc") then decimal 40 ++ [newline]
        else initialMap.text)
  | .metadata _ => .ok ⟨0, 0⟩
  | c => c.refused

theorem readable_hostWithStatus (file : StatusFile) :
    Readable (hostWithStatus file) someTarget file where
  status := rfl
  lastCap := ⟨40, congrArg Except.ok (if_pos rfl)⟩
  metadata := ⟨⟨0, 0⟩, rfl⟩
  uidMap := by
    have hne : mapPath (ascii "/proc") someTarget (ascii "uid_map") ≠ lastCapPath (ascii "/proc") :=
      by decide
    exact ⟨initialMap, congrArg Except.ok (if_neg hne)⟩
  gidMap := by
    have hne : mapPath (ascii "/proc") someTarget (ascii "gid_map") ≠ lastCapPath (ascii "/proc") :=
      by decide
    exact ⟨initialMap, congrArg Except.ok (if_neg hne)⟩
  apparmor := .absent rfl

/-- The status of a process with the given name and the capabilities of a container. -/
def statusNamed (comm : Bytes) (h : 0 ∉ comm) : StatusFile where
  comm := comm
  comm_noNul := h
  front := []
  capEff := 0xa80425fb
  back := [⟨ascii "Threads", ascii "1", by decide, by decide, by decide, by decide⟩]

theorem status_findsMask_tab :
    ∃ processStatus, (status someTarget .auto).Yields (S := linux)
        (hostWithStatus (statusNamed (ascii "a\tCapEff:\t1") (by decide))) (.value processStatus) ∧
      processStatus.effectiveCapabilities = 0xa80425fb :=
  (status_findsMask_iff (readable_hostWithStatus _) .auto).mpr (by decide +kernel)

/-- A name that was cut at 15 bytes, within the character é. -/
def cutName : StatusFile := statusNamed (ascii "backup-service" ++ [0xc3]) (by decide)

theorem status_cutName :
    Readable (hostWithStatus cutName) someTarget cutName ∧
      ∀ apparmorMode, ¬∃ processStatus, (status someTarget apparmorMode).Yields (S := linux)
        (hostWithStatus cutName) (.value processStatus) := by
  refine ⟨readable_hostWithStatus cutName, fun apparmorMode => ?_⟩
  rintro ⟨processStatus, hstatus⟩
  obtain ⟨line, hmem, hutf8⟩ : ∃ line ∈ cutName.readLines, isUtf8 line = false := by
    decide +kernel
  obtain ⟨e, he⟩ := status_fails (readable_hostWithStatus cutName).status apparmorMode hmem hutf8
  obtain ⟨log, hrun⟩ := hstatus []
  cases he.unique hrun

end Cntr.StatusFiles
