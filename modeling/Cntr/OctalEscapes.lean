import Cntr.TextSplitting
import Cntr.WhiteSpaceText

/-!
Paths as the kernel shows them in a line of columns: some bytes stand as a
backslash and three octal digits.
-/

namespace Cntr.OctalEscapes

open Cntr.ByteText
open Cntr.TextSplitting
open Cntr.WhiteSpaceText

def backslash : UInt8 := 92

def dot : UInt8 := 46

/-- Which bytes are shown as digits. What separates columns and lines is among them,
what separates and makes up the components of a path is not. -/
structure EscapeSet where
  bytes : List UInt8
  space_mem : space ∈ bytes
  newline_mem : newline ∈ bytes
  backslash_mem : backslash ∈ bytes
  slash_notMem : slash ∉ bytes
  dot_notMem : dot ∉ bytes

def octalDigit (n : Nat) : UInt8 := (48 + n % 8).toUInt8

def octal (b : UInt8) : Bytes :=
  [backslash, octalDigit (b.toNat / 64), octalDigit (b.toNat / 8), octalDigit b.toNat]

def escapeByte (set : EscapeSet) (b : UInt8) : Bytes := if b ∈ set.bytes then octal b else [b]

def escape (set : EscapeSet) (text : Bytes) : Bytes := text.flatMap (escapeByte set)

/-- Nothing in the text is shown in another way. -/
def Unescaped (set : EscapeSet) (text : Bytes) : Prop := ∀ b ∈ text, b ∉ set.bytes

instance (set : EscapeSet) : DecidablePred (Unescaped set) :=
  fun text => text.decidableBAll fun b => b ∉ set.bytes

theorem octalDigit_mem (n : Nat) : octalDigit n ∈ ascii "01234567" := by
  have hdigits : ∀ d < 8, (48 + d).toUInt8 ∈ ascii "01234567" := by decide
  exact hdigits _ (Nat.mod_lt n (by decide))

theorem mem_octal {b c : UInt8} (h : c ∈ octal b) : c ∈ ascii "\\01234567" := by
  rw [octal, List.mem_cons, List.mem_cons, List.mem_cons, List.mem_singleton] at h
  rcases h with rfl | rfl | rfl | rfl
  · exact List.mem_cons_self
  · exact List.mem_cons_of_mem _ (octalDigit_mem _)
  · exact List.mem_cons_of_mem _ (octalDigit_mem _)
  · exact List.mem_cons_of_mem _ (octalDigit_mem _)

theorem graphic_octal {b c : UInt8} (h : c ∈ octal b) : Graphic c := by
  have hall : ∀ c ∈ ascii "\\01234567", Graphic c := by decide +kernel
  exact hall c (mem_octal h)

section Escaping

variable {set : EscapeSet}

theorem not_mem_escape {b : UInt8} (hb : b ∈ set.bytes) (hdigits : b ∉ ascii "\\01234567")
    (text : Bytes) : b ∉ escape set text := by
  intro hmem
  obtain ⟨c, -, hc⟩ := List.mem_flatMap.mp hmem
  unfold escapeByte at hc
  split at hc
  · exact hdigits (mem_octal hc)
  · next hplain =>
      rw [List.mem_singleton] at hc
      exact hplain (hc ▸ hb)

theorem newline_not_mem_escape (set : EscapeSet) (text : Bytes) : newline ∉ escape set text :=
  not_mem_escape set.newline_mem (by decide) text

theorem space_not_mem_escape (set : EscapeSet) (text : Bytes) : space ∉ escape set text :=
  not_mem_escape set.space_mem (by decide) text

theorem escape_cons (b : UInt8) (text : Bytes) :
    escape set (b :: text) = escapeByte set b ++ escape set text := rfl

theorem escape_cons_unescaped {b : UInt8} (hb : b ∉ set.bytes) (text : Bytes) :
    escape set (b :: text) = b :: escape set text := by
  rw [escape_cons, escapeByte, if_neg hb]
  rfl

theorem escape_cons_escaped {b : UInt8} (hb : b ∈ set.bytes) (text : Bytes) :
    escape set (b :: text) = octal b ++ escape set text := by
  rw [escape_cons, escapeByte, if_pos hb]

theorem Unescaped.escape_eq {text : Bytes} (h : Unescaped set text) : escape set text = text := by
  induction text with
  | nil => rfl
  | cons b text ih =>
      have hrest := ih fun c hc => h c (List.mem_cons_of_mem _ hc)
      rw [escape_cons_unescaped (h b (by simp)), hrest]

theorem length_le_escape (set : EscapeSet) (text : Bytes) :
    text.length ≤ (escape set text).length := by
  induction text with
  | nil => exact Nat.le_refl 0
  | cons b text ih =>
      have hbyte : 1 ≤ (escapeByte set b).length := by
        unfold escapeByte
        split
        · exact Nat.le_add_left 1 3
        · exact Nat.le_refl 1
      rw [escape_cons, List.length_append, List.length_cons]
      omega

theorem escape_ne_nil {text : Bytes} (h : text ≠ []) : escape set text ≠ [] := by
  intro hnil
  have hle := length_le_escape set text
  rw [hnil] at hle
  exact h (List.eq_nil_of_length_eq_zero (Nat.le_zero.mp hle))

theorem escape_eq_self_iff (text : Bytes) : escape set text = text ↔ Unescaped set text := by
  constructor
  · intro h
    induction text with
    | nil => exact fun b hb => (List.not_mem_nil hb).elim
    | cons b text ih =>
        by_cases hb : b ∈ set.bytes
        · have hlength := congrArg List.length h
          have hle := length_le_escape set text
          rw [escape_cons_escaped hb, List.length_append, List.length_cons] at hlength
          have hoctal : (octal b).length = 4 := rfl
          omega
        · rw [escape_cons_unescaped hb] at h
          have hrest := ih (List.cons.inj h).2
          exact List.forall_mem_cons.mpr ⟨hb, hrest⟩
  · exact Unescaped.escape_eq

theorem unescaped_of_escape {text : Bytes} (h : backslash ∉ escape set text) :
    Unescaped set text := by
  intro b hmem hb
  apply h
  have hoctal : backslash ∈ escapeByte set b := by
    rw [escapeByte, if_pos hb]
    exact List.mem_cons_self
  exact List.mem_flatMap.mpr ⟨b, hmem, hoctal⟩

theorem escape_eq_iff {shown : Bytes} (h : Unescaped set shown) (text : Bytes) :
    escape set text = shown ↔ text = shown := by
  constructor
  · rintro rfl
    have hplain : Unescaped set text := unescaped_of_escape fun hmem =>
      h _ hmem set.backslash_mem
    exact hplain.escape_eq.symm
  · rintro rfl
    exact h.escape_eq

theorem isPrefix_of_escape {start text : Bytes} (hstart : backslash ∉ start)
    (h : start <+: escape set text) : start <+: text := by
  induction text generalizing start with
  | nil => exact h
  | cons b text ih =>
      cases start with
      | nil => exact List.nil_prefix
      | cons c start =>
          by_cases hb : b ∈ set.bytes
          · rw [escape_cons_escaped hb] at h
            obtain ⟨rfl, -⟩ := List.cons_prefix_cons.mp h
            exact absurd List.mem_cons_self hstart
          · rw [escape_cons_unescaped hb] at h
            obtain ⟨rfl, hrest⟩ := List.cons_prefix_cons.mp h
            have hsame := ih (fun hmem => hstart (List.mem_cons_of_mem _ hmem)) hrest
            exact List.cons_prefix_cons.mpr ⟨rfl, hsame⟩

/-- White space is shown as it is or not at all, and none is added. -/
theorem unbroken_escape {text : Bytes} (h : Unbroken text) : Unbroken (escape set text) := by
  have hplain : ∀ encoding ∈ whiteSpace, backslash ∉ encoding := by decide
  induction text with
  | nil => exact h
  | cons b text ih =>
      obtain ⟨hfirst, hrest⟩ := (unbroken_cons b text).mp h
      by_cases hb : b ∈ set.bytes
      · rw [escape_cons_escaped hb]
        exact unbroken_append (fun c hc => graphic_octal hc) (ih hrest)
      · rw [escape_cons_unescaped hb, unbroken_cons]
        refine ⟨?_, ih hrest⟩
        rw [leadingLength_eq_zero_iff] at hfirst ⊢
        intro encoding hencoding hprefix
        rw [← escape_cons_unescaped hb] at hprefix
        exact hfirst encoding hencoding (isPrefix_of_escape (hplain _ hencoding) hprefix)

theorem splitOn_append {sep : UInt8} {word : Bytes} (h : sep ∉ word) (text : Bytes) :
    (word ++ text).splitOn sep = (text.splitOn sep).modifyHead (word ++ ·) := by
  induction word with
  | nil => exact (congrFun List.modifyHead_id _).symm
  | cons b word ih =>
      obtain ⟨hb, hword⟩ := not_or.mp (mt List.mem_cons.mpr h)
      have hfirst : (b == sep) = false := beq_eq_false_iff_ne.mpr (Ne.symm hb)
      rw [List.cons_append, List.splitOn_cons_eq_if_modifyHead, hfirst, ih hword]
      simp only [Bool.false_eq_true, if_false, List.modifyHead_modifyHead]
      rfl

theorem splitOn_escape (path : Path) :
    (escape set path).splitOn slash = (path.splitOn slash).map (escape set) := by
  have hoctal : ∀ b, slash ∉ octal b := fun b hmem => absurd (mem_octal hmem) (by decide)
  induction path with
  | nil => rfl
  | cons b path ih =>
      by_cases hslash : b = slash
      · subst hslash
        rw [escape_cons_unescaped set.slash_notMem, List.splitOn_cons_eq_if_modifyHead, ih,
          List.splitOn_cons_eq_if_modifyHead]
        rfl
      · have hword : slash ∉ escapeByte set b := by
          unfold escapeByte
          split
          · exact hoctal b
          · simpa using Ne.symm hslash
        have hfirst : (b == slash) = false := beq_eq_false_iff_ne.mpr hslash
        rw [escape_cons, splitOn_append hword, ih, List.splitOn_cons_eq_if_modifyHead, hfirst]
        cases path.splitOn slash with
        | nil => rfl
        | cons part parts => rfl

theorem filter_escape {shown : Bytes} (h : Unescaped set shown) (parts : List Bytes) :
    (parts.map (escape set)).filter (· ≠ shown) = (parts.filter (· ≠ shown)).map (escape set) := by
  rw [List.filter_map]
  congr 1
  apply List.filter_congr
  intro part _
  have hiff := escape_eq_iff h part
  simp [hiff]

theorem head?_escape (path : Path) :
    (escape set path).head? = some slash ↔ path.head? = some slash := by
  cases path with
  | nil => rfl
  | cons b path =>
      by_cases hb : b ∈ set.bytes
      · rw [escape_cons_escaped hb]
        have hne : b ≠ slash := fun heq => set.slash_notMem (heq ▸ hb)
        have hbackslash : (octal b ++ escape set path).head? = some backslash := rfl
        rw [hbackslash, List.head?_cons, Option.some_inj, Option.some_inj]
        exact iff_of_false (by decide) hne
      · rw [escape_cons_unescaped hb]
        rfl

theorem pathComponents_escape (path : Path) :
    pathComponents (escape set path) = (pathComponents path).map (escape set) := by
  have hempty : Unescaped set [] := fun b hb => (List.not_mem_nil hb).elim
  have hdot : Unescaped set (ascii ".") := by
    intro b hb
    rw [List.mem_singleton.mp hb]
    exact set.dot_notMem
  have hslash : escape set [slash] = [slash] := escape_cons_unescaped set.slash_notMem []
  simp only [pathComponents, splitOn_escape, filter_escape hempty, head?_escape]
  split
  · rw [filter_escape hdot, List.map_cons, hslash]
  · rw [← List.map_take, ← List.map_drop, filter_escape hdot, List.map_append]

theorem mem_components {path : Path} {b : UInt8} (h : b ∈ path) (hslash : b ≠ slash)
    (hdot : b ∉ ascii ".") : ∃ part ∈ pathComponents path, b ∈ part := by
  have hpart : ∃ part ∈ path.splitOn slash, b ∈ part := by
    have hpath : [slash].intercalate (path.splitOn slash) = path := List.intercalate_splitOn slash
    by_contra hnone
    rw [← hpath] at h
    refine not_mem_intercalate (by simpa using hslash) (fun part hpart hb => ?_) h
    exact hnone ⟨part, hpart, hb⟩
  obtain ⟨part, hpart, hb⟩ := hpart
  refine ⟨part, ?_, hb⟩
  have hne : part ≠ [] := List.ne_nil_of_mem hb
  have hnotDot : part ≠ ascii "." := fun heq => hdot (heq ▸ hb)
  have hparts : part ∈ (path.splitOn slash).filter (· ≠ []) := by simp [hpart, hne]
  rw [pathComponents]
  split
  · simp [hpart, hne, hnotDot]
  · rw [← List.take_append_drop 1 ((path.splitOn slash).filter (· ≠ [])),
      List.mem_append] at hparts
    rcases hparts with hfirst | hrest
    · exact List.mem_append_left _ hfirst
    · apply List.mem_append_right
      rw [List.mem_filter]
      exact ⟨hrest, by simpa using hnotDot⟩

theorem unescaped_iff_components (path : Path) :
    Unescaped set path ↔ (pathComponents path).map (escape set) = pathComponents path := by
  constructor
  · intro h
    rw [← pathComponents_escape, h.escape_eq]
  · intro h b hmem hb
    have hslash : b ≠ slash := fun heq => set.slash_notMem (heq ▸ hb)
    have hdot : b ∉ ascii "." := by
      intro hmem
      obtain rfl : b = dot := List.mem_singleton.mp hmem
      exact set.dot_notMem hb
    obtain ⟨part, hpart, hbpart⟩ := mem_components hmem hslash hdot
    have hsame : escape set part = part := by
      have hmap : (pathComponents path).map (escape set) = (pathComponents path).map id := by
        rw [h, List.map_id]
      exact List.map_inj_left.mp hmap part hpart
    exact (escape_eq_self_iff part).mp hsame b hbpart hb

/-- Where a path is below another one, it is seen from what is shown of it just when
that one is shown as it is. -/
theorem pathStartsWith_escape_iff {path base : Path} (h : pathStartsWith path base = true) :
    pathStartsWith (escape set path) base = true ↔ Unescaped set base := by
  rw [pathStartsWith, List.isPrefixOf_iff_prefix] at h ⊢
  rw [pathComponents_escape, unescaped_iff_components]
  obtain ⟨rest, hrest⟩ := h
  have hshown : (pathComponents path).map (escape set) =
      (pathComponents base).map (escape set) ++ rest.map (escape set) := by
    rw [← hrest, List.map_append]
  rw [hshown]
  constructor
  · intro hprefix
    have hlength : (pathComponents base).length =
        ((pathComponents base).map (escape set)).length := by
      rw [List.length_map]
    have hshort : pathComponents base <+: (pathComponents base).map (escape set) :=
      List.prefix_of_prefix_length_le hprefix (List.prefix_append _ _) (Nat.le_of_eq hlength)
    exact (hshort.eq_of_length hlength).symm
  · intro heq
    rw [heq]
    exact List.prefix_append _ _

end Escaping

end Cntr.OctalEscapes
