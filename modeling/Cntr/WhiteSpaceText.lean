import Cntr.ByteText
import Mathlib.Data.List.Find

/-!
The text operations of the standard library that go by characters rather than
bytes, on UTF-8 text. No encoding of a white space character occurs in UTF-8
text other than at that character.
-/

namespace Cntr.WhiteSpaceText

open Cntr.ByteText

/-- The encodings of the characters with the Unicode property `White_Space`. -/
def whiteSpace : List Bytes :=
  [[9], [10], [11], [12], [13], [32], [0xc2, 0x85], [0xc2, 0xa0], [0xe1, 0x9a, 0x80],
    [0xe2, 0x80, 0x80], [0xe2, 0x80, 0x81], [0xe2, 0x80, 0x82], [0xe2, 0x80, 0x83],
    [0xe2, 0x80, 0x84], [0xe2, 0x80, 0x85], [0xe2, 0x80, 0x86], [0xe2, 0x80, 0x87],
    [0xe2, 0x80, 0x88], [0xe2, 0x80, 0x89], [0xe2, 0x80, 0x8a], [0xe2, 0x80, 0xa8],
    [0xe2, 0x80, 0xa9], [0xe2, 0x80, 0xaf], [0xe2, 0x81, 0x9f], [0xe3, 0x80, 0x80]]

/-- The length of the member of `encodings` with which the text starts, or 0. -/
def leadingLength (encodings : List Bytes) (text : Bytes) : Nat :=
  ((encodings.find? fun encoding => encoding.isPrefixOf text).map List.length).getD 0

/-- Drop `skip` bytes, and then the encodings with which the text goes on. -/
def dropLeading (encodings : List Bytes) : Nat → Bytes → Bytes
  | _, [] => []
  | skip + 1, _ :: text => dropLeading encodings skip text
  | 0, b :: text =>
      match leadingLength encodings (b :: text) with
      | 0 => b :: text
      | skip + 1 => dropLeading encodings skip text

def trimStart (text : Bytes) : Bytes := dropLeading whiteSpace 0 text

def trimEnd (text : Bytes) : Bytes :=
  (dropLeading (whiteSpace.map List.reverse) 0 text.reverse).reverse

def trim (text : Bytes) : Bytes := trimEnd (trimStart text)

/-- The parts of a text between white space, the first of which starts with
`word`; `skip` bytes belong to a character that was seen already. -/
def wordsFrom (word : Bytes) : Nat → Bytes → List Bytes
  | _, [] => [word]
  | skip + 1, _ :: text => wordsFrom word skip text
  | 0, b :: text =>
      match leadingLength whiteSpace (b :: text) with
      | 0 => wordsFrom (word ++ [b]) 0 text
      | skip + 1 => word :: wordsFrom [] skip text

def splitWhitespace (text : Bytes) : List Bytes :=
  (wordsFrom [] 0 text).filter fun word => !word.isEmpty

/-- `trim_matches` for an ASCII character. -/
def trimMatches (b : UInt8) (text : Bytes) : Bytes :=
  ((text.dropWhile (· == b)).reverse.dropWhile (· == b)).reverse

/-- A character that separates columns. -/
def Blank (b : UInt8) : Prop := b = space ∨ b = tab

/-- An ASCII character that is no white space and no control character. -/
def Graphic (b : UInt8) : Prop := 33 ≤ b.toNat ∧ b.toNat < 127

instance : DecidablePred Graphic := fun _ => inferInstanceAs (Decidable (_ ∧ _))

theorem leadingLength_of_forall {encodings : List Bytes} {text : Bytes}
    (h : ∀ encoding ∈ encodings, ¬encoding <+: text) : leadingLength encodings text = 0 := by
  have hnone : encodings.find? (fun encoding => encoding.isPrefixOf text) = none := by
    rw [List.find?_eq_none]
    intro encoding hencoding hprefix
    exact h encoding hencoding (List.isPrefixOf_iff_prefix.mp hprefix)
  rw [leadingLength, hnone]
  rfl

/-- No encoding starts with a graphic character, read in either direction. -/
theorem leadingLength_graphic {encodings : List Bytes}
    (h : encodings = whiteSpace ∨ encodings = whiteSpace.map List.reverse) {b : UInt8}
    (hb : Graphic b) (text : Bytes) : leadingLength encodings (b :: text) = 0 := by
  have hall : ∀ encoding ∈ whiteSpace ++ whiteSpace.map List.reverse,
      encoding.head?.any (fun first => first.toNat < 33 || 127 ≤ first.toNat) := by decide
  apply leadingLength_of_forall
  intro encoding hencoding hprefix
  have hmem : encoding ∈ whiteSpace ++ whiteSpace.map List.reverse := by
    obtain rfl | rfl := h
    · exact List.mem_append_left _ hencoding
    · exact List.mem_append_right _ hencoding
  have hhead := hall encoding hmem
  cases encoding with
  | nil => cases hhead
  | cons first rest =>
      obtain ⟨rfl, -⟩ := List.cons_prefix_cons.mp hprefix
      obtain ⟨hlow, hhigh⟩ := hb
      have hout : first.toNat < 33 ∨ 127 ≤ first.toNat := by simpa using hhead
      omega

theorem leadingLength_blank {b : UInt8} (hb : Blank b) (text : Bytes) :
    leadingLength whiteSpace (b :: text) = 1 := by
  obtain rfl | rfl := hb
  · rfl
  · rfl

theorem wordsFrom_graphic (word : Bytes) {more : Bytes} (hmore : ∀ b ∈ more, Graphic b)
    (text : Bytes) : wordsFrom word 0 (more ++ text) = wordsFrom (word ++ more) 0 text := by
  induction more generalizing word with
  | nil => simp
  | cons b more ih =>
      rw [List.cons_append, wordsFrom, leadingLength_graphic (.inl rfl) (hmore b (by simp))]
      have hrest := ih (word ++ [b]) fun c hc => hmore c (List.mem_cons_of_mem _ hc)
      rw [hrest, List.append_assoc]
      rfl

theorem wordsFrom_blank (word : Bytes) {b : UInt8} (hb : Blank b) (text : Bytes) :
    wordsFrom word 0 (b :: text) = word :: wordsFrom [] 0 text := by
  rw [wordsFrom, leadingLength_blank hb]

theorem splitWhitespace_blank {padding : Bytes} (hpadding : ∀ b ∈ padding, Blank b)
    (text : Bytes) : splitWhitespace (padding ++ text) = splitWhitespace text := by
  induction padding with
  | nil => rfl
  | cons b padding ih =>
      have hrest := ih fun c hc => hpadding c (List.mem_cons_of_mem _ hc)
      rw [splitWhitespace] at hrest ⊢
      rw [List.cons_append, wordsFrom_blank [] (hpadding b (by simp)), List.filter_cons]
      simpa using hrest

theorem splitWhitespace_word {word : Bytes} (hne : word ≠ []) (hword : ∀ b ∈ word, Graphic b)
    {padding : Bytes} (hpadding : ∀ b ∈ padding, Blank b) (hsep : padding ≠ []) (text : Bytes) :
    splitWhitespace (word ++ (padding ++ text)) = word :: splitWhitespace text := by
  obtain ⟨b, padding, rfl⟩ := List.exists_cons_of_ne_nil hsep
  have hrest := splitWhitespace_blank
    (fun c hc => hpadding c (List.mem_cons_of_mem _ hc)) text
  rw [← hrest, splitWhitespace, splitWhitespace, wordsFrom_graphic [] hword, List.nil_append,
    List.cons_append, wordsFrom_blank word (hpadding b (by simp)), List.filter_cons]
  simp [hne]

theorem splitWhitespace_lastWord {word : Bytes} (hne : word ≠ [])
    (hword : ∀ b ∈ word, Graphic b) {padding : Bytes} (hpadding : ∀ b ∈ padding, Blank b) :
    splitWhitespace (word ++ padding) = [word] := by
  cases padding with
  | nil =>
      rw [splitWhitespace, wordsFrom_graphic [] hword, List.nil_append, wordsFrom]
      simp [hne]
  | cons b padding =>
      have hsplit := splitWhitespace_word hne hword hpadding (List.cons_ne_nil b padding) []
      rw [List.append_nil] at hsplit
      rw [hsplit]
      rfl

/-- No white space occurs in the text. -/
def Unbroken (text : Bytes) : Prop := ∀ encoding ∈ whiteSpace, ¬encoding <:+: text

theorem leadingLength_eq_zero_iff (text : Bytes) :
    leadingLength whiteSpace text = 0 ↔ ∀ encoding ∈ whiteSpace, ¬encoding <+: text := by
  constructor
  · intro h encoding hencoding hprefix
    have hlength : ∀ encoding ∈ whiteSpace, encoding.length ≠ 0 := by decide
    have hsome : (whiteSpace.find? fun encoding => encoding.isPrefixOf text).isSome := by
      rw [List.find?_isSome]
      exact ⟨encoding, hencoding, List.isPrefixOf_iff_prefix.mpr hprefix⟩
    obtain ⟨found, hfound⟩ := Option.isSome_iff_exists.mp hsome
    rw [leadingLength, hfound] at h
    exact hlength found (List.mem_of_find?_eq_some hfound) h
  · exact leadingLength_of_forall

theorem leadingLength_le (encodings : List Bytes) (text : Bytes) :
    leadingLength encodings text ≤ text.length := by
  rw [leadingLength]
  cases hfound : encodings.find? fun encoding => encoding.isPrefixOf text with
  | none => exact Nat.zero_le _
  | some encoding =>
      have hprefix := List.find?_some hfound
      exact (List.isPrefixOf_iff_prefix.mp hprefix).length_le

theorem unbroken_nil : Unbroken [] := by
  intro encoding hencoding hinfix
  have hnil : [] ∉ whiteSpace := by decide
  exact hnil (List.infix_nil.mp hinfix ▸ hencoding)

theorem unbroken_cons (b : UInt8) (text : Bytes) :
    Unbroken (b :: text) ↔ leadingLength whiteSpace (b :: text) = 0 ∧ Unbroken text := by
  rw [leadingLength_eq_zero_iff]
  constructor
  · intro h
    constructor
    · intro encoding hencoding hprefix
      exact h encoding hencoding hprefix.isInfix
    · intro encoding hencoding hinfix
      exact h encoding hencoding (List.infix_cons hinfix)
  · rintro ⟨hfirst, hrest⟩ encoding hencoding hinfix
    rcases List.infix_cons_iff.mp hinfix with hprefix | hinfix
    · exact hfirst encoding hencoding hprefix
    · exact hrest encoding hencoding hinfix

theorem unbroken_append {word : Bytes} (hword : ∀ b ∈ word, Graphic b) {text : Bytes}
    (h : Unbroken text) : Unbroken (word ++ text) := by
  induction word with
  | nil => exact h
  | cons b word ih =>
      have hrest := ih fun c hc => hword c (List.mem_cons_of_mem _ hc)
      rw [List.cons_append, unbroken_cons]
      exact ⟨leadingLength_graphic (.inl rfl) (hword b (by simp)) _, hrest⟩

theorem unbroken_graphic {text : Bytes} (h : ∀ b ∈ text, Graphic b) : Unbroken text := by
  have hword := unbroken_append h unbroken_nil
  rwa [List.append_nil] at hword

/-- What stands before a space does not become white space with it. -/
theorem leadingLength_append_space {text : Bytes} (h : text ≠ []) (rest : Bytes) :
    leadingLength whiteSpace (text ++ space :: rest) = leadingLength whiteSpace text := by
  have htail : ∀ encoding ∈ whiteSpace, space ∉ encoding.tail := by decide
  have hiff : ∀ encoding ∈ whiteSpace,
      encoding <+: text ++ space :: rest ↔ encoding <+: text := by
    intro encoding hencoding
    constructor
    · intro hprefix
      rcases List.prefix_or_prefix_of_prefix hprefix (List.prefix_append text _) with
        hshort | ⟨more, rfl⟩
      · exact hshort
      · rw [List.prefix_append_right_inj] at hprefix
        cases more with
        | nil => simp
        | cons b more =>
            obtain ⟨rfl, -⟩ := List.cons_prefix_cons.mp hprefix
            have hmem : space ∈ (text ++ space :: more).tail := by
              rw [List.tail_append_of_ne_nil h]
              simp
            exact absurd hmem (htail _ hencoding)
    · intro hprefix
      exact hprefix.trans (List.prefix_append text _)
  have hfind : whiteSpace.find? (fun encoding => encoding.isPrefixOf (text ++ space :: rest)) =
      whiteSpace.find? fun encoding => encoding.isPrefixOf text := by
    apply List.find?_congr
    intro encoding hencoding
    rw [Bool.eq_iff_iff, List.isPrefixOf_iff_prefix, List.isPrefixOf_iff_prefix]
    exact hiff encoding hencoding
  rw [leadingLength, leadingLength, hfind]

theorem wordsFrom_append_space (word : Bytes) {skip : Nat} {text : Bytes}
    (hskip : skip ≤ text.length) (rest : Bytes) :
    wordsFrom word skip (text ++ space :: rest) =
      wordsFrom word skip text ++ wordsFrom [] 0 rest := by
  induction text generalizing word skip with
  | nil =>
      obtain rfl : skip = 0 := Nat.le_zero.mp hskip
      rw [List.nil_append, wordsFrom_blank word (.inl rfl), wordsFrom]
      rfl
  | cons b text ih =>
      cases skip with
      | succ skip =>
          have hrest : skip ≤ text.length := Nat.le_of_succ_le_succ hskip
          rw [List.cons_append, wordsFrom, wordsFrom]
          exact ih word hrest
      | zero =>
          have hlength := leadingLength_append_space (List.cons_ne_nil b text) rest
          have hle := leadingLength_le whiteSpace (b :: text)
          rw [List.cons_append] at hlength ⊢
          rw [wordsFrom, wordsFrom, hlength]
          cases hfirst : leadingLength whiteSpace (b :: text) with
          | zero => exact ih _ (Nat.zero_le _)
          | succ passed =>
              rw [hfirst] at hle
              have hrest := ih [] (Nat.le_of_succ_le_succ hle)
              exact congrArg (word :: ·) hrest

theorem splitWhitespace_append_space (text rest : Bytes) :
    splitWhitespace (text ++ space :: rest) = splitWhitespace text ++ splitWhitespace rest := by
  rw [splitWhitespace, wordsFrom_append_space [] (Nat.zero_le _), List.filter_append]
  rfl

theorem splitWhitespace_intercalate (parts : List Bytes) :
    splitWhitespace ([space].intercalate parts) = parts.flatMap splitWhitespace := by
  induction parts with
  | nil => rfl
  | cons part parts ih =>
      cases parts with
      | nil => simp
      | cons next parts =>
          rw [List.intercalate_cons_cons, List.append_assoc, List.singleton_append,
            splitWhitespace_append_space, ih]
          rfl

theorem wordsFrom_unbroken (word : Bytes) {text : Bytes} (h : Unbroken text) :
    wordsFrom word 0 text = [word ++ text] := by
  induction text generalizing word with
  | nil => rw [wordsFrom, List.append_nil]
  | cons b text ih =>
      obtain ⟨hfirst, hrest⟩ := (unbroken_cons b text).mp h
      rw [wordsFrom, hfirst]
      have hwords := ih (word ++ [b]) hrest
      rw [List.append_assoc] at hwords
      exact hwords

theorem splitWhitespace_unbroken {text : Bytes} (hne : text ≠ []) (h : Unbroken text) :
    splitWhitespace text = [text] := by
  rw [splitWhitespace, wordsFrom_unbroken [] h]
  simp [hne]

/-- The word that is being read goes on as far as there is no white space. -/
theorem wordsFrom_first (word text : Bytes) : ∃ more rest, more <+: text ∧ Unbroken more ∧
    wordsFrom word 0 text = (word ++ more) :: rest := by
  induction text generalizing word with
  | nil => exact ⟨[], [], List.nil_prefix, unbroken_nil, by simp [wordsFrom]⟩
  | cons b text ih =>
      cases hfirst : leadingLength whiteSpace (b :: text) with
      | zero =>
          obtain ⟨more, rest, hmore, hunbroken, hwords⟩ := ih (word ++ [b])
          have hprefix : b :: more <+: b :: text := List.cons_prefix_cons.mpr ⟨rfl, hmore⟩
          have hzero : leadingLength whiteSpace (b :: more) = 0 := by
            rw [leadingLength_eq_zero_iff] at hfirst ⊢
            intro encoding hencoding hshort
            exact hfirst encoding hencoding (hshort.trans hprefix)
          refine ⟨b :: more, rest, hprefix, (unbroken_cons b more).mpr ⟨hzero, hunbroken⟩, ?_⟩
          rw [wordsFrom, hfirst]
          rw [List.append_assoc] at hwords
          exact hwords
      | succ skip =>
          refine ⟨[], wordsFrom [] skip text, List.nil_prefix, unbroken_nil, ?_⟩
          rw [wordsFrom, hfirst, List.append_nil]

theorem splitWhitespace_first {b : UInt8} (hb : Graphic b) (text : Bytes) :
    ∃ more rest, Unbroken (b :: more) ∧ splitWhitespace (b :: text) = (b :: more) :: rest := by
  obtain ⟨more, rest, -, hunbroken, hwords⟩ := wordsFrom_first [b] text
  have hfirst : ∀ text, leadingLength whiteSpace (b :: text) = 0 :=
    leadingLength_graphic (.inl rfl) hb
  refine ⟨more, rest.filter fun word => !word.isEmpty,
    (unbroken_cons b more).mpr ⟨hfirst more, hunbroken⟩, ?_⟩
  rw [splitWhitespace, wordsFrom, hfirst]
  simp [hwords]

theorem trimEnd_graphic (text : Bytes) {b : UInt8} (hb : Graphic b) :
    trimEnd (text ++ [b]) = text ++ [b] := by
  rw [trimEnd, List.reverse_append, List.reverse_singleton, List.singleton_append, dropLeading,
    leadingLength_graphic (.inr rfl) hb]
  simp

theorem trimEnd_newline (text : Bytes) : trimEnd (text ++ [newline]) = trimEnd text := by
  have hone : leadingLength (whiteSpace.map List.reverse) (newline :: text.reverse) = 1 := rfl
  rw [trimEnd, trimEnd, List.reverse_append, List.reverse_singleton, List.singleton_append,
    dropLeading, hone]

theorem trimStart_graphic {b : UInt8} (hb : Graphic b) (text : Bytes) :
    trimStart (b :: text) = b :: text := by
  rw [trimStart, dropLeading, leadingLength_graphic (.inl rfl) hb]

example : splitWhitespace (ascii " tmpfs\t /run  ") = [ascii "tmpfs", ascii "/run"] := by decide

end Cntr.WhiteSpaceText
