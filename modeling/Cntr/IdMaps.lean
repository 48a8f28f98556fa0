import Cntr.IdTranslation
import Cntr.TextSplitting
import Mathlib.Algebra.GroupWithZero.Nat
import Mathlib.Data.List.Pairwise
import Mathlib.Order.CompletePartialOrder
import Mathlib.Order.Interval.Set.Disjoint

/-!
The ID maps of user namespaces as partial bijections between outer and inner
IDs, and what `translate_id` makes of the files that render them.
-/

namespace Cntr.IdMaps

open Cntr.ByteText
open Cntr.CallTree
open Cntr.SystemCalls
open Cntr.IdTranslation
open Cntr.NumberParsing
open Cntr.TextSplitting
open Cntr.WhiteSpaceText

theorem eq_of_mem_disjoint {α β : Type} {f : α → Set β} {l : List α}
    (hl : l.Pairwise fun a b => Disjoint (f a) (f b)) {a b : α} (ha : a ∈ l) (hb : b ∈ l)
    {x : β} (hxa : x ∈ f a) (hxb : x ∈ f b) : b = a := by
  by_contra hne
  have hsymm : Std.Symm fun a b => Disjoint (f a) (f b) := ⟨fun _ _ h => h.symm⟩
  exact Set.disjoint_left.mp (hl.forall ha hb (Ne.symm hne)) hxa hxb

structure IdRange where
  inner : UInt32
  outer : UInt32
  length : UInt32
  pos : 1 ≤ length.toNat
  inner_le : inner.toNat + length.toNat ≤ 2 ^ 32
  outer_le : outer.toNat + length.toNat ≤ 2 ^ 32

namespace IdRange

def innerIds (range : IdRange) : Set Nat :=
  Set.Ico range.inner.toNat (range.inner.toNat + range.length.toNat)

def outerIds (range : IdRange) : Set Nat :=
  Set.Ico range.outer.toNat (range.outer.toNat + range.length.toNat)

def Covers (range : IdRange) (outer : UInt32) : Prop := outer.toNat ∈ range.outerIds

instance (range : IdRange) (outer : UInt32) : Decidable (range.Covers outer) :=
  inferInstanceAs (Decidable (_ ∧ _))

/-- The two IDs have the same offset in the range. -/
def Relates (range : IdRange) (outer inner : UInt32) : Prop :=
  ∃ offset < range.length.toNat, outer.toNat = range.outer.toNat + offset ∧
    inner.toNat = range.inner.toNat + offset

variable {range : IdRange} {outer inner : UInt32}

theorem Relates.covers (h : range.Relates outer inner) : range.Covers outer := by
  obtain ⟨offset, hlt, houter, -⟩ := h
  refine Set.mem_Ico.mpr ⟨?_, ?_⟩
  · omega
  · omega

theorem Relates.mem_innerIds (h : range.Relates outer inner) :
    inner.toNat ∈ range.innerIds := by
  obtain ⟨offset, hlt, -, hinner⟩ := h
  refine Set.mem_Ico.mpr ⟨?_, ?_⟩
  · omega
  · omega

theorem Relates.inner_unique {inner' : UInt32} (h : range.Relates outer inner)
    (h' : range.Relates outer inner') : inner' = inner := by
  obtain ⟨offset, -, houter, hinner⟩ := h
  obtain ⟨offset', -, houter', hinner'⟩ := h'
  apply UInt32.toNat_inj.mp
  omega

theorem Relates.outer_unique {outer' : UInt32} (h : range.Relates outer inner)
    (h' : range.Relates outer' inner) : outer' = outer := by
  obtain ⟨offset, -, houter, hinner⟩ := h
  obtain ⟨offset', -, houter', hinner'⟩ := h'
  apply UInt32.toNat_inj.mp
  omega

def toInner (range : IdRange) (outer : UInt32) : UInt32 := range.inner + (outer - range.outer)

/-- The computation of `translate_id` stays within the unsigned numbers. -/
theorem Covers.offset (h : range.Covers outer) :
    range.outer ≤ outer ∧ outer - range.outer < range.length ∧
      (outer - range.outer).toNat = outer.toNat - range.outer.toNat ∧
      range.inner.toNat + (outer - range.outer).toNat < UInt32.size := by
  obtain ⟨hlow, hhigh⟩ := Set.mem_Ico.mp h
  have hle : range.outer ≤ outer := UInt32.le_iff_toNat_le.mpr hlow
  have hsub : (outer - range.outer).toNat = outer.toNat - range.outer.toNat :=
    UInt32.toNat_sub_of_le _ _ hle
  have hinner := range.inner_le
  refine ⟨hle, UInt32.lt_iff_toNat_lt.mpr ?_, hsub, ?_⟩
  · omega
  · rw [UInt32.size]
    omega

theorem Covers.toNat_toInner (h : range.Covers outer) :
    (range.toInner outer).toNat = range.inner.toNat + (outer.toNat - range.outer.toNat) := by
  obtain ⟨-, -, hsub, hlt⟩ := h.offset
  rw [toInner, UInt32.toNat_add, ← hsub]
  exact Nat.mod_eq_of_lt hlt

theorem Covers.relates (h : range.Covers outer) : range.Relates outer (range.toInner outer) := by
  obtain ⟨hlow, hhigh⟩ := Set.mem_Ico.mp h
  refine ⟨outer.toNat - range.outer.toNat, ?_, ?_, h.toNat_toInner⟩
  · omega
  · omega

end IdRange

/-- A map that the kernel can produce. -/
structure IdMap where
  ranges : List IdRange
  innerDisjoint : ranges.Pairwise fun r s => Disjoint r.innerIds s.innerIds
  outerDisjoint : ranges.Pairwise fun r s => Disjoint r.outerIds s.outerIds

namespace IdMap

variable {map : IdMap} {outer outer' inner inner' : UInt32}

def Covers (map : IdMap) (outer : UInt32) : Prop := ∃ range ∈ map.ranges, range.Covers outer

instance (map : IdMap) (outer : UInt32) : Decidable (map.Covers outer) :=
  inferInstanceAs (Decidable (∃ range ∈ map.ranges, range.Covers outer))

def Relates (map : IdMap) (outer inner : UInt32) : Prop :=
  ∃ range ∈ map.ranges, range.Relates outer inner

theorem range_unique {r s : IdRange} (hr : r ∈ map.ranges) (hs : s ∈ map.ranges)
    (hcr : r.Covers outer) (hcs : s.Covers outer) : s = r :=
  eq_of_mem_disjoint map.outerDisjoint hr hs hcr hcs

theorem innerRange_unique {r s : IdRange} (hr : r ∈ map.ranges) (hs : s ∈ map.ranges)
    (hcr : inner.toNat ∈ r.innerIds) (hcs : inner.toNat ∈ s.innerIds) : s = r :=
  eq_of_mem_disjoint map.innerDisjoint hr hs hcr hcs

theorem Relates.covers (h : map.Relates outer inner) : map.Covers outer := by
  obtain ⟨range, hmem, h⟩ := h
  exact ⟨range, hmem, h.covers⟩

theorem Relates.inner_unique (h : map.Relates outer inner) (h' : map.Relates outer inner') :
    inner' = inner := by
  obtain ⟨r, hr, h⟩ := h
  obtain ⟨s, hs, h'⟩ := h'
  obtain rfl := range_unique hr hs h.covers h'.covers
  exact h.inner_unique h'

theorem Relates.outer_unique (h : map.Relates outer inner) (h' : map.Relates outer' inner) :
    outer' = outer := by
  obtain ⟨r, hr, h⟩ := h
  obtain ⟨s, hs, h'⟩ := h'
  obtain rfl := innerRange_unique hr hs h.mem_innerIds h'.mem_innerIds
  exact h.outer_unique h'

end IdMap

/-- What stands before, between and after the columns of a line. -/
structure Padding where
  before : Bytes
  afterInner : Bytes
  afterOuter : Bytes
  atEnd : Bytes
  blank : ∀ b ∈ before ++ afterInner ++ afterOuter ++ atEnd, Blank b
  afterInner_ne : afterInner ≠ []
  afterOuter_ne : afterOuter ≠ []

def IdRange.line (padding : Padding) (range : IdRange) : Bytes :=
  padding.before ++ (decimal range.inner.toNat ++ (padding.afterInner ++
    (decimal range.outer.toNat ++ (padding.afterOuter ++
      (decimal range.length.toNat ++ padding.atEnd)))))

structure MapFile where
  lines : List (Padding × IdRange)

namespace MapFile

def ranges (file : MapFile) : List IdRange := file.lines.map Prod.snd

def text (file : MapFile) : Bytes :=
  (file.lines.map fun line => line.2.line line.1).flatMap (· ++ [newline])

/-- The file renders the map, in any order. -/
def Renders (file : MapFile) (map : IdMap) : Prop := file.ranges.Perm map.ranges

end MapFile

theorem graphic_decimal {b : UInt8} {n : Nat} (h : b ∈ decimal n) : Graphic b := by
  obtain ⟨hlow, hhigh⟩ := digit_of_mem_decimal h
  exact ⟨by omega, by omega⟩

theorem decimal_ne_nil (n : Nat) : decimal n ≠ [] := numeral_ne_nil 10 n

section Lines

variable {padding : Padding} {range : IdRange} {outer : UInt32} {mapPath : Path}

theorem IdRange.byte_of_mem_line {b : UInt8} (h : b ∈ range.line padding) :
    Blank b ∨ Graphic b := by
  have hblank := padding.blank
  simp only [line, List.mem_append] at h hblank
  rcases h with h | h | h | h | h | h | h
  · exact .inl (hblank b (.inl (.inl (.inl h))))
  · exact .inr (graphic_decimal h)
  · exact .inl (hblank b (.inl (.inl (.inr h))))
  · exact .inr (graphic_decimal h)
  · exact .inl (hblank b (.inl (.inr h)))
  · exact .inr (graphic_decimal h)
  · exact .inl (hblank b (.inr h))

theorem splitWhitespace_line :
    splitWhitespace (range.line padding) =
      [decimal range.inner.toNat, decimal range.outer.toNat, decimal range.length.toNat] := by
  have hblank := padding.blank
  simp only [List.mem_append] at hblank
  rw [IdRange.line, splitWhitespace_blank fun b hb => hblank b (.inl (.inl (.inl hb)))]
  rw [splitWhitespace_word (decimal_ne_nil _) (fun _ => graphic_decimal)
    (fun b hb => hblank b (.inl (.inl (.inr hb)))) padding.afterInner_ne]
  rw [splitWhitespace_word (decimal_ne_nil _) (fun _ => graphic_decimal)
    (fun b hb => hblank b (.inl (.inr hb))) padding.afterOuter_ne]
  rw [splitWhitespace_lastWord (decimal_ne_nil _) (fun _ => graphic_decimal)
    fun b hb => hblank b (.inr hb)]

theorem translateInRange_eq :
    translateInRange mapPath outer range.inner range.outer range.length =
      .ok (if range.Covers outer then some (range.toInner outer) else none) := by
  by_cases hcovers : range.Covers outer
  · obtain ⟨hle, hlt, -, hsum⟩ := hcovers.offset
    rw [if_pos hcovers, translateInRange, if_pos hle]
    simp only [if_pos hlt, if_pos hsum]
    rfl
  · rw [if_neg hcovers, translateInRange]
    by_cases hle : range.outer ≤ outer
    · have hlt : ¬outer - range.outer < range.length := by
        intro hlt
        have hlow := UInt32.le_iff_toNat_le.mp hle
        have hhigh := UInt32.lt_iff_toNat_lt.mp hlt
        rw [UInt32.toNat_sub_of_le _ _ hle] at hhigh
        exact hcovers (Set.mem_Ico.mpr ⟨hlow, by omega⟩)
      rw [if_pos hle]
      simp only [if_neg hlt]
    · rw [if_neg hle]

theorem parseId_decimal (what : Bytes) (n : UInt32) :
    parseId mapPath what (decimal n.toNat) = .ok n := by
  rw [parseId, parseU32_decimal]
  rfl

theorem translateLine_line :
    translateLine mapPath outer (range.line padding) =
      .ok (if range.Covers outer then some (range.toInner outer) else none) := by
  rw [translateLine, splitWhitespace_line]
  simp only [parseId_decimal]
  exact translateInRange_eq

end Lines

def firstInner (ranges : List IdRange) (outer : UInt32) : UInt32 :=
  match ranges.find? fun range => range.Covers outer with
  | some range => range.toInner outer
  | none => outer

theorem translateLines_lines (mapPath : Path) (outer : UInt32)
    (lines : List (Padding × IdRange)) :
    translateLines mapPath outer (lines.map fun line => line.2.line line.1) =
      .ok (firstInner (lines.map Prod.snd) outer) := by
  induction lines with
  | nil => rfl
  | cons line lines ih =>
      rw [List.map_cons, List.map_cons, translateLines, translateLine_line, firstInner,
        List.find?_cons]
      by_cases hcovers : line.2.Covers outer
      · simp only [hcovers, if_true, decide_true]
      · simp only [hcovers, if_false, decide_false]
        exact ih

namespace MapFile

variable {file : MapFile} {map : IdMap} {outer : UInt32}

theorem linesOf_text (file : MapFile) :
    linesOf file.text = file.lines.map fun line => line.2.line line.1 := by
  have hbyte : ∀ line ∈ file.lines.map fun line => line.2.line line.1,
      ∀ b ∈ line, Blank b ∨ Graphic b := by
    intro line hline b hb
    obtain ⟨⟨padding, range⟩, -, rfl⟩ := List.mem_map.mp hline
    exact IdRange.byte_of_mem_line hb
  have hplain : ∀ line ∈ file.lines.map fun line => line.2.line line.1,
      newline ∉ line ∧ carriageReturn ∉ line := by
    intro line hline
    constructor
    · intro hb
      rcases hbyte line hline _ hb with (h | h) | h
      · exact absurd h (by decide)
      · exact absurd h (by decide)
      · exact absurd h.1 (by decide)
    · intro hb
      rcases hbyte line hline _ hb with (h | h) | h
      · exact absurd h (by decide)
      · exact absurd h (by decide)
      · exact absurd h.1 (by decide)
  rw [text, linesOf_flatMap fun line hline => (hplain line hline).1]
  refine (List.map_congr_left fun line hline => ?_).trans (List.map_id _)
  rw [stripCarriageReturn, if_neg]
  · rfl
  · intro hlast
    exact (hplain line hline).2 (List.mem_of_getLast? hlast)

theorem isUtf8_text (file : MapFile) : isUtf8 file.text = true := by
  apply isUtf8_of_ascii
  intro b hb
  rw [text, List.mem_flatMap] at hb
  obtain ⟨line, hline, hb⟩ := hb
  obtain ⟨⟨padding, range⟩, -, rfl⟩ := List.mem_map.mp hline
  rcases List.mem_append.mp hb with hb | hb
  · rcases IdRange.byte_of_mem_line hb with (rfl | rfl) | h
    · decide
    · decide
    · have := h.2
      omega
  · rw [List.mem_singleton.mp hb]
    decide

theorem translated_text (mapPath : Path) (file : MapFile) (outer : UInt32) :
    translated mapPath outer file.text = .value (firstInner file.ranges outer) := by
  rw [translated, linesOf_text, translateLines_lines]
  rfl

theorem Renders.mem_iff (h : file.Renders map) {range : IdRange} :
    range ∈ file.ranges ↔ range ∈ map.ranges := List.Perm.mem_iff h

/-- The first range that covers an ID is the only one, whatever the order. -/
theorem Renders.firstInner_of_covers (h : file.Renders map) {range : IdRange}
    (hmem : range ∈ map.ranges) (hcovers : range.Covers outer) :
    firstInner file.ranges outer = range.toInner outer := by
  rw [firstInner]
  cases hfind : file.ranges.find? fun range => range.Covers outer with
  | none =>
      have hnone := List.find?_eq_none.mp hfind range (h.mem_iff.mpr hmem)
      exact absurd hcovers (by simpa using hnone)
  | some first =>
      have hfirst : first.Covers outer := by simpa using List.find?_some hfind
      obtain rfl := map.range_unique hmem (h.mem_iff.mp (List.mem_of_find?_eq_some hfind))
        hcovers hfirst
      rfl

theorem Renders.firstInner_of_not_covers (h : file.Renders map) (hnot : ¬map.Covers outer) :
    firstInner file.ranges outer = outer := by
  rw [firstInner]
  cases hfind : file.ranges.find? fun range => range.Covers outer with
  | none => rfl
  | some first =>
      have hfirst : first.Covers outer := by simpa using List.find?_some hfind
      exact absurd ⟨first, h.mem_iff.mp (List.mem_of_find?_eq_some hfind), hfirst⟩ hnot

end MapFile

theorem translateId_text_iff (file : MapFile) (mapPath : Path) (outer : UInt32) (log : Log)
    (o : Outcome Halt ProcfsError UInt32) :
    (translateId mapPath outer).Runs (tracing linux) log o
        (log ++ [⟨.readToString mapPath, .ok file.text⟩]) ↔
      o = .value (firstInner file.ranges outer) := by
  rw [translateId_runs_iff file.isUtf8_text, MapFile.translated_text]

/-- A covered ID gets the inner ID of the range that covers it, from which the
map leads back, in whatever order the ranges are rendered. -/
theorem translateId_covered {map : IdMap} {outer : UInt32} (hcovers : map.Covers outer) :
    ∃ range ∈ map.ranges, range.Covers outer ∧
      (∀ r ∈ map.ranges, r.Covers outer → r = range) ∧
      ∃ inner : UInt32, inner.toNat = range.inner.toNat + (outer.toNat - range.outer.toNat) ∧
        map.Relates outer inner ∧ (∀ outer', map.Relates outer' inner → outer' = outer) ∧
        ∀ file : MapFile, file.Renders map → ∀ mapPath log o,
          (translateId mapPath outer).Runs (tracing linux) log o
              (log ++ [⟨.readToString mapPath, .ok file.text⟩]) ↔ o = .value inner := by
  obtain ⟨range, hmem, hcovers⟩ := hcovers
  have hrelates : map.Relates outer (range.toInner outer) := ⟨range, hmem, hcovers.relates⟩
  refine ⟨range, hmem, hcovers, fun r hr hcr => map.range_unique hmem hr hcovers hcr,
    range.toInner outer, hcovers.toNat_toInner, hrelates, fun _ h => hrelates.outer_unique h,
    fun file hfile mapPath log o => ?_⟩
  rw [translateId_text_iff, hfile.firstInner_of_covers hmem hcovers]

/-- The map of a container whose root is a user of the host, with the other IDs
taken from the subordinate ones of that user. -/
def rootlessMap : IdMap where
  ranges :=
    [⟨0, 1000, 1, by decide, by decide, by decide⟩,
      ⟨1, 100000, 65536, by decide, by decide, by decide⟩]
  innerDisjoint := by
    refine .cons (fun range hrange => ?_) (.cons (by simp) .nil)
    rw [List.mem_singleton.mp hrange]
    exact Set.Ico_disjoint_Ico.mpr (by decide)
  outerDisjoint := by
    refine .cons (fun range hrange => ?_) (.cons (by simp) .nil)
    rw [List.mem_singleton.mp hrange]
    exact Set.Ico_disjoint_Ico.mpr (by decide)

theorem translateId_covered_rootless :
    ∃ range ∈ rootlessMap.ranges, range.Covers 165535 ∧
      (∀ r ∈ rootlessMap.ranges, r.Covers 165535 → r = range) ∧
      ∃ inner : UInt32, inner.toNat = range.inner.toNat + (165535 - range.outer.toNat) ∧
        rootlessMap.Relates 165535 inner ∧
        (∀ outer', rootlessMap.Relates outer' inner → outer' = 165535) ∧
        ∀ file : MapFile, file.Renders rootlessMap → ∀ mapPath log o,
          (translateId mapPath 165535).Runs (tracing linux) log o
              (log ++ [⟨.readToString mapPath, .ok file.text⟩]) ↔ o = .value inner :=
  translateId_covered (by decide)

/-- An ID that the map does not cover stays as it is. -/
def IdMap.Gives (map : IdMap) (outer inner : UInt32) : Prop :=
  map.Relates outer inner ∨ ¬map.Covers outer ∧ inner = outer

theorem exists_gives (map : IdMap) (outer : UInt32) :
    ∃ inner, (∀ file : MapFile, file.Renders map → firstInner file.ranges outer = inner) ∧
      map.Gives outer inner := by
  by_cases hcovers : map.Covers outer
  · obtain ⟨range, hmem, hrange⟩ := hcovers
    refine ⟨range.toInner outer, fun file hfile => hfile.firstInner_of_covers hmem hrange, ?_⟩
    exact .inl ⟨range, hmem, hrange.relates⟩
  · exact ⟨outer, fun file hfile => hfile.firstInner_of_not_covers hcovers, .inr ⟨hcovers, rfl⟩⟩

theorem IdMap.Gives.eq_of_relates {map : IdMap} {outer outer' inner inner' : UInt32}
    (h : map.Gives outer inner) (h' : map.Gives outer' inner') (hnot : ¬map.Covers outer)
    (hrelates : map.Relates outer' outer) : inner = inner' := by
  rcases h with h | ⟨-, rfl⟩
  · exact absurd h.covers hnot
  rcases h' with h' | ⟨hnot', -⟩
  · exact h'.inner_unique hrelates
  · exact absurd hrelates.covers hnot'

/-- Two IDs are translated to the same one when the map does not cover one of
them and gives this very ID to the other. -/
theorem translateId_eq_iff {map : IdMap} {outer outer' : UInt32} (hne : outer ≠ outer') :
    ∃ inner inner' : UInt32,
      (∀ file : MapFile, file.Renders map → ∀ mapPath log o,
        ((translateId mapPath outer).Runs (tracing linux) log o
            (log ++ [⟨.readToString mapPath, .ok file.text⟩]) ↔ o = .value inner) ∧
        ((translateId mapPath outer').Runs (tracing linux) log o
            (log ++ [⟨.readToString mapPath, .ok file.text⟩]) ↔ o = .value inner')) ∧
      (inner = inner' ↔
        (¬map.Covers outer ∧ map.Relates outer' outer) ∨
          (¬map.Covers outer' ∧ map.Relates outer outer')) := by
  obtain ⟨inner, hinner, hgives⟩ := exists_gives map outer
  obtain ⟨inner', hinner', hgives'⟩ := exists_gives map outer'
  refine ⟨inner, inner', fun file hfile mapPath log o => ?_, ?_⟩
  · rw [translateId_text_iff, translateId_text_iff, hinner file hfile, hinner' file hfile]
    exact ⟨Iff.rfl, Iff.rfl⟩
  constructor
  · rintro rfl
    rcases hgives with h | ⟨hnot, rfl⟩
    · rcases hgives' with h' | ⟨hnot', rfl⟩
      · exact absurd (h'.outer_unique h) hne
      · exact .inr ⟨hnot', h⟩
    · rcases hgives' with h' | ⟨hnot', rfl⟩
      · exact .inl ⟨hnot, h'⟩
      · exact absurd rfl hne
  · rintro (⟨hnot, hrelates⟩ | ⟨hnot', hrelates⟩)
    · exact hgives.eq_of_relates hgives' hnot hrelates
    · exact (hgives'.eq_of_relates hgives hnot' hrelates).symm

theorem translateId_eq_iff_rootless :
    ∃ inner inner' : UInt32,
      (∀ file : MapFile, file.Renders rootlessMap → ∀ mapPath log o,
        ((translateId mapPath 1000).Runs (tracing linux) log o
            (log ++ [⟨.readToString mapPath, .ok file.text⟩]) ↔ o = .value inner) ∧
        ((translateId mapPath 0).Runs (tracing linux) log o
            (log ++ [⟨.readToString mapPath, .ok file.text⟩]) ↔ o = .value inner')) ∧
      (inner = inner' ↔
        (¬rootlessMap.Covers 1000 ∧ rootlessMap.Relates 0 1000) ∨
          (¬rootlessMap.Covers 0 ∧ rootlessMap.Relates 1000 0)) :=
  translateId_eq_iff (by decide)

/-- A line with its columns as the kernel pads them. -/
def kernelPadding : Padding where
  before := List.replicate 10 space
  afterInner := List.replicate 6 space
  afterOuter := List.replicate 6 space
  atEnd := []
  blank := by
    intro b hb
    refine .inl ?_
    simp only [List.mem_append, List.mem_replicate, List.not_mem_nil, or_false] at hb
    obtain (⟨-, h⟩ | ⟨-, h⟩) | ⟨-, h⟩ := hb
    · exact h
    · exact h
    · exact h
  afterInner_ne := by decide
  afterOuter_ne := by decide

/-- Root of the host, whom the map does not cover, is taken for root of the
container, who is a user of the host. -/
theorem translateId_collides :
    ∃ (map : IdMap) (file : MapFile) (outer outer' inner : UInt32),
      file.Renders map ∧ outer ≠ outer' ∧ ¬map.Covers outer ∧ map.Relates outer' inner ∧
        ∀ mapPath : Path,
          (translateId mapPath outer).Runs (tracing linux) [] (.value inner)
            [⟨.readToString mapPath, .ok file.text⟩] ∧
          (translateId mapPath outer').Runs (tracing linux) [] (.value inner)
            [⟨.readToString mapPath, .ok file.text⟩] := by
  let file : MapFile := ⟨rootlessMap.ranges.map fun range => (kernelPadding, range)⟩
  have hrelates : rootlessMap.Relates 1000 0 :=
    ⟨_, List.mem_cons_self, 0, by decide, by decide, by decide⟩
  refine ⟨rootlessMap, file, 0, 1000, 0, List.Perm.refl _, by decide, by decide, hrelates,
    fun mapPath => ⟨?_, ?_⟩⟩
  · exact (translateId_text_iff file mapPath 0 [] _).mpr rfl
  · exact (translateId_text_iff file mapPath 1000 [] _).mpr rfl

end Cntr.IdMaps
