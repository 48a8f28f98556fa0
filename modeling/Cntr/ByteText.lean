import Mathlib.Data.List.Basic

/-!
Text and paths as byte strings. The separators that the parsers look for are
ASCII, so splitting the bytes of a UTF-8 string at them is splitting the string.
-/

namespace Cntr.ByteText

abbrev Bytes := List UInt8

abbrev Path := Bytes

instance instLawfulBEqBytes : LawfulBEq Bytes := inferInstance

def ascii (s : String) : Bytes := s.toList.map fun c => c.toNat.toUInt8

def newline : UInt8 := 10

def carriageReturn : UInt8 := 13

def slash : UInt8 := 47

def colon : UInt8 := 58

def comma : UInt8 := 44

def space : UInt8 := 32

def tab : UInt8 := 9

def decimal (n : Nat) : Bytes := (Nat.toDigits 10 n).map fun c => c.toNat.toUInt8

theorem digit_of_mem_decimal {b : UInt8} {n : Nat} (h : b ∈ decimal n) :
    48 ≤ b.toNat ∧ b.toNat ≤ 57 := by
  rw [decimal, List.mem_map] at h
  obtain ⟨c, hc, rfl⟩ := h
  have hdigit := Nat.isDigit_of_mem_toDigits (by decide) (by decide) hc
  simp only [Char.isDigit, Bool.and_eq_true, decide_eq_true_eq] at hdigit
  have hlow : 48 ≤ c.toNat := hdigit.1
  have hhigh : c.toNat ≤ 57 := hdigit.2
  have hbyte : c.toNat.toUInt8.toNat = c.toNat := by
    rw [Nat.toUInt8_eq, UInt8.toNat_ofNat']
    omega
  rw [hbyte]
  exact ⟨hlow, hhigh⟩

def isUtf8 (bs : Bytes) : Bool := ByteArray.validateUTF8 ⟨bs.toArray⟩

theorem utf8EncodeChar_ofNat {b : UInt8} (h : b.toNat < 128) :
    String.utf8EncodeChar (Char.ofNat b.toNat) = [b] := by
  have hall : ∀ n : Fin 128, String.utf8EncodeChar (Char.ofNat n) = [UInt8.ofNat n] := by
    decide
  have hb := hall ⟨b.toNat, h⟩
  rwa [UInt8.ofNat_toNat] at hb

theorem isUtf8_of_ascii {bs : Bytes} (h : ∀ b ∈ bs, b.toNat < 128) : isUtf8 bs = true := by
  rw [isUtf8, ByteArray.validateUTF8_eq_true_iff]
  refine .intro (bs.map fun b => Char.ofNat b.toNat) ?_
  have hbytes : bs.flatMap (fun b => String.utf8EncodeChar (Char.ofNat b.toNat)) = bs := by
    induction bs with
    | nil => rfl
    | cons b bs ih =>
        rw [List.flatMap_cons, utf8EncodeChar_ofNat (h b (by simp)),
          ih fun b hb => h b (List.mem_cons_of_mem _ hb)]
        rfl
  rw [List.utf8Encode, List.flatMap_map, hbytes]
  apply ByteArray.ext
  simp

theorem isUtf8_of_all {bs : Bytes} (h : bs.all (fun b => b.toNat < 128) = true) :
    isUtf8 bs = true :=
  isUtf8_of_ascii fun b hb => of_decide_eq_true (List.all_eq_true.mp h b hb)

theorem isUtf8_append {xs ys : Bytes} (hxs : isUtf8 xs = true) (hys : isUtf8 ys = true) :
    isUtf8 (xs ++ ys) = true := by
  rw [isUtf8, ByteArray.validateUTF8_eq_true_iff] at hxs hys ⊢
  have happend : (⟨(xs ++ ys).toArray⟩ : ByteArray) = ⟨xs.toArray⟩ ++ ⟨ys.toArray⟩ := by
    apply ByteArray.ext
    simp
  rw [happend]
  exact hxs.append hys

/-- `PathBuf::push`: an absolute path replaces the one it is pushed on. -/
def pushPath (base p : Path) : Path :=
  if p.head? = some slash then p
  else if base.getLast?.any (· != slash) then base ++ slash :: p
  else base ++ p

/-- The parts of a path. Paths with the same parts name the same file: empty
parts and `.` stay where they are. -/
def components (p : Path) : Bool × List Bytes :=
  (p.head? = some slash,
    (p.splitOn slash).filter fun part => part ≠ [] ∧ part ≠ ascii ".")

def SamePath (p q : Path) : Prop := components p = components q

instance : DecidableRel SamePath := fun p q => decEq (components p) (components q)

/-- The components of a path as `Path::components` yields them; the root is the
component `/`. -/
def pathComponents (p : Path) : List Bytes :=
  let parts := (p.splitOn slash).filter (· ≠ [])
  if p.head? = some slash then [slash] :: parts.filter (· ≠ ascii ".")
  else parts.take 1 ++ (parts.drop 1).filter (· ≠ ascii ".")

/-- `Path::starts_with`. -/
def pathStartsWith (p base : Path) : Bool := (pathComponents base).isPrefixOf (pathComponents p)

def stripStart (start text : Bytes) : Option Bytes :=
  if start <+: text then some (text.drop start.length) else none

def trimStartMatches (b : UInt8) (text : Bytes) : Bytes := text.dropWhile (· == b)

/-- What `BufRead::lines` makes of a line that ended with a newline. -/
def stripCarriageReturn (line : Bytes) : Bytes :=
  if line.getLast? = some carriageReturn then line.dropLast else line

/-- The lines of a file whose content is `content`, as `BufRead::lines` yields
them: the rest after the last newline is a line if it is not empty. -/
def linesOf (content : Bytes) : List Bytes :=
  let parts := content.splitOn newline
  parts.dropLast.map stripCarriageReturn ++
    (parts.getLast?.toList.filter fun rest => !rest.isEmpty)

end Cntr.ByteText
