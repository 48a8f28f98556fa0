import Cntr.ByteText

/-!
Splitting a text at a pattern, and the lines of a file that was written line by
line.
-/

namespace Cntr.TextSplitting

open Cntr.ByteText

variable {α : Type}

theorem not_mem_intercalate {x : α} {sep : List α} (hsep : x ∉ sep) {parts : List (List α)}
    (hparts : ∀ part ∈ parts, x ∉ part) : x ∉ sep.intercalate parts := by
  induction parts with
  | nil => simp [List.intercalate]
  | cons part parts ih =>
      have hpart : x ∉ part := hparts part (by simp)
      have hrest : x ∉ sep.intercalate parts := ih fun p hp => hparts p (by simp [hp])
      cases parts with
      | nil => simpa using hpart
      | cons next parts =>
          rw [List.intercalate_cons_cons]
          simp only [List.mem_append, not_or]
          exact ⟨⟨hpart, hsep⟩, hrest⟩

theorem intercalate_concat (sep : List α) {parts : List (List α)} (hparts : parts ≠ [])
    (last : List α) :
    sep.intercalate (parts ++ [last]) = sep.intercalate parts ++ sep ++ last := by
  induction parts with
  | nil => exact absurd rfl hparts
  | cons part parts ih =>
      cases parts with
      | nil => simp [List.intercalate]
      | cons next parts =>
          have hrest := ih (List.cons_ne_nil next parts)
          rw [List.cons_append, List.cons_append, List.intercalate_cons_cons,
            List.intercalate_cons_cons, ← List.cons_append, hrest]
          simp

theorem not_mem_of_mem_splitOn [BEq α] [LawfulBEq α] {x : α} {xs part : List α}
    (h : part ∈ xs.splitOn x) : x ∉ part := by
  induction xs generalizing part with
  | nil =>
      rw [List.splitOn_nil] at h
      rw [List.mem_singleton.mp h]
      exact List.not_mem_nil
  | cons y xs ih =>
      rw [List.splitOn_cons_eq_if_modifyHead] at h
      split at h
      · rcases List.mem_cons.mp h with rfl | h
        · exact List.not_mem_nil
        · exact ih h
      next hne =>
      obtain ⟨first, rest, hsplit⟩ := List.exists_cons_of_ne_nil (List.splitOn_ne_nil x xs)
      rw [hsplit] at h ih
      rcases List.mem_cons.mp h with rfl | h
      · rintro (_ | ⟨_, hmem⟩)
        · simp at hne
        · exact ih List.mem_cons_self hmem
      · exact ih (List.mem_cons_of_mem _ h)

/-- `str::splitn`. -/
def splitn (sep : UInt8) : Nat → Bytes → List Bytes
  | 0, _ => []
  | 1, text => [text]
  | n + 2, text =>
      match text.dropWhile (· != sep) with
      | [] => [text]
      | _ :: rest => text.takeWhile (· != sep) :: splitn sep (n + 1) rest

theorem splitn_first (sep : UInt8) (n : Nat) (text : Bytes) :
    (splitn sep (n + 2) text).getD 0 [] = text.takeWhile (· != sep) := by
  have hwhole := List.takeWhile_append_dropWhile (p := (· != sep)) (l := text)
  rw [splitn]
  split
  · next hrest =>
      rw [hrest, List.append_nil] at hwhole
      simp [hwhole]
  · rfl

variable [DecidableEq α]

/-- `str::split` with a pattern that is not empty. The counter tells how much
of a match is still to be passed over. -/
def splitOnPattern (pat : List α) : Nat → List α → List (List α)
  | _, [] => [[]]
  | skip + 1, _ :: xs => splitOnPattern pat skip xs
  | 0, x :: xs =>
      if pat <+: x :: xs then [] :: splitOnPattern pat (pat.length - 1) xs
      else (splitOnPattern pat 0 xs).modifyHead (x :: ·)

theorem splitOnPattern_ne_nil (pat : List α) (skip : Nat) (xs : List α) :
    splitOnPattern pat skip xs ≠ [] := by
  induction xs generalizing skip with
  | nil => simp [splitOnPattern]
  | cons x xs ih =>
      cases skip with
      | succ skip => exact ih skip
      | zero =>
          rw [splitOnPattern]
          split
          · simp
          · simpa using ih 0

theorem splitOnPattern_skip (pat passed rest : List α) :
    splitOnPattern pat passed.length (passed ++ rest) = splitOnPattern pat 0 rest := by
  induction passed with
  | nil => rfl
  | cons x passed ih => exact ih

/-- The first part ends where the pattern matches first. -/
theorem splitOnPattern_append {pat : List α} (hpat : pat ≠ []) (part rest : List α)
    (hfirst : ∀ k, k < part.length → ¬pat <+: (part ++ pat ++ rest).drop k) :
    splitOnPattern pat 0 (part ++ pat ++ rest) = part :: splitOnPattern pat 0 rest := by
  induction part with
  | nil =>
      obtain ⟨a, pat', rfl⟩ := List.exists_cons_of_ne_nil hpat
      have hmatch : a :: pat' <+: a :: (pat' ++ rest) := ⟨rest, rfl⟩
      rw [List.nil_append, List.cons_append, splitOnPattern, if_pos hmatch]
      exact congrArg _ (splitOnPattern_skip _ pat' rest)
  | cons x part ih =>
      have hnow : ¬pat <+: x :: (part ++ pat ++ rest) := hfirst 0 (by simp)
      have hlater := ih fun k hk => hfirst (k + 1) (by simpa using hk)
      rw [List.cons_append, List.cons_append, splitOnPattern, if_neg hnow, hlater]
      rfl

/-- A pattern of two elements first matches where its second element comes first. -/
theorem splitOnPattern_pair {a b : α} (hne : a ≠ b) {part : List α} (hb : b ∉ part)
    (rest : List α) :
    splitOnPattern [a, b] 0 (part ++ [a, b] ++ rest) = part :: splitOnPattern [a, b] 0 rest := by
  apply splitOnPattern_append (List.cons_ne_nil a [b])
  intro k hk hmatch
  obtain ⟨x, tail, htail⟩ : ∃ x tail, part.drop k = x :: tail :=
    List.exists_cons_of_ne_nil (by simpa using hk)
  have htailMem : ∀ y ∈ tail, y ∈ part := by
    intro y hy
    apply List.mem_of_mem_drop (i := k)
    rw [htail]
    exact List.mem_cons_of_mem x hy
  rw [List.append_assoc, List.drop_append_of_le_length (Nat.le_of_lt hk), htail] at hmatch
  obtain ⟨-, hmatch⟩ := List.cons_prefix_cons.mp hmatch
  cases tail with
  | nil => exact hne (List.cons_prefix_cons.mp hmatch).1.symm
  | cons y tail =>
      obtain ⟨rfl, -⟩ := List.cons_prefix_cons.mp hmatch
      exact hb (htailMem b (by simp))

theorem stripCarriageReturn_append (text : Bytes) {last : Bytes} (h : last ≠ []) :
    stripCarriageReturn (text ++ last) = text ++ stripCarriageReturn last := by
  unfold stripCarriageReturn
  rw [List.getLast?_append_of_ne_nil text h]
  split
  · exact List.dropLast_append_of_ne_nil h
  · rfl

theorem stripCarriageReturn_cons {b : UInt8} (hb : b ≠ carriageReturn) (text : Bytes) :
    stripCarriageReturn (b :: text) = b :: stripCarriageReturn text := by
  cases text with
  | nil => simp [stripCarriageReturn, hb]
  | cons b' text => exact stripCarriageReturn_append [b] (List.cons_ne_nil b' text)

theorem flatMap_newline (lines : List Bytes) :
    lines.flatMap (· ++ [newline]) = [newline].intercalate (lines ++ [[]]) := by
  induction lines with
  | nil => rfl
  | cons line lines ih =>
      rw [List.flatMap_cons, ih]
      cases lines <;> simp [List.intercalate]

theorem linesOf_flatMap {lines : List Bytes} (h : ∀ line ∈ lines, newline ∉ line) :
    linesOf (lines.flatMap (· ++ [newline])) = lines.map stripCarriageReturn := by
  have hsplit : (lines.flatMap (· ++ [newline])).splitOn newline = lines ++ [[]] := by
    rw [flatMap_newline]
    refine List.splitOn_intercalate newline (fun line hline => ?_) (by simp)
    rcases List.mem_append.mp hline with hline | hline
    · exact h line hline
    · simp [List.mem_singleton.mp hline]
  rw [linesOf, hsplit]
  simp

end Cntr.TextSplitting
