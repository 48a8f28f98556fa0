import Cntr.ArgumentRoundTrip
import Cntr.CallTreeTermination
import Mathlib.Data.List.TakeDrop
import Mathlib.Data.List.TakeWhile

/-!
Environments as they are written in `environ`, and what `read_environment` makes
of them.
-/

namespace Cntr.EnvironmentRendering

open Cntr.ByteText
open Cntr.CallTree
open Cntr.SystemCalls
open Cntr.ArgumentRoundTrip (foldl_last)
open Cntr.CommandExecution

def nul : UInt8 := 0

def equals : UInt8 := 61

structure Variable where
  name : Bytes
  value : Bytes
  name_ne : name ≠ []
  equals_notMem : equals ∉ name
  nul_notMem_name : nul ∉ name
  nul_notMem_value : nul ∉ value

structure Fragment where
  text : Bytes
  equals_notMem : equals ∉ text
  nul_notMem : nul ∉ text

abbrev Entry : Type := Variable ⊕ Fragment

namespace Entry

def text : Entry → Bytes
  | .inl var => var.name ++ equals :: var.value
  | .inr fragment => fragment.text

def valueOf (key : Bytes) : Entry → Option Bytes
  | .inl var => if var.name = key then some var.value else none
  | .inr _ => none

theorem nul_notMem_text (entry : Entry) : nul ∉ entry.text := by
  cases entry with
  | inl var =>
      rw [text, List.mem_append, List.mem_cons]
      rintro (h | h | h)
      · exact var.nul_notMem_name h
      · exact absurd h (by decide)
      · exact var.nul_notMem_value h
  | inr fragment => exact fragment.nul_notMem

end Entry

/-- The entries of an environment in some order, with fragments between them. -/
structure Rendering (m : Environment) where
  entries : List Entry
  mem_iff : ∀ name value, m name = some value ↔
    ∃ var : Variable, .inl var ∈ entries ∧ var.name = name ∧ var.value = value

/-- The content of `environ`; the last entry need not be followed by a NUL. -/
def Rendering.content {m : Environment} (rendering : Rendering m) (final : Bool) : Bytes :=
  [nul].intercalate (rendering.entries.map Entry.text) ++ if final then [nul] else []

/-- The parts that `BufRead::split` yields: the rest after the last delimiter is one
if it is not empty. -/
def partsOf (delimiter : UInt8) (content : Bytes) : List Bytes :=
  let parts := content.splitOn delimiter
  parts.dropLast ++ (parts.getLast?.toList.filter fun rest => !rest.isEmpty)

/-- A kernel with a file of this content; the state counts the parts read. -/
def showing (content : Bytes) : Kernel linux Nat
  | n, .openFile _ _, r, n' => r = .ok () ∧ n' = n
  | n, .nextSplit _ delimiter, r, n' => r = .ok (partsOf delimiter content)[n]? ∧ n' = n + 1
  | n, _, _, n' => n' = n

theorem insertVariable_nil (vars : Environment) : insertVariable vars [] = vars := rfl

theorem span_variable (var : Variable) :
    (var.name ++ equals :: var.value).span (· != 61) = (var.name, equals :: var.value) := by
  have hname : ∀ b ∈ var.name, (b != 61) = true := by
    intro b hb
    refine bne_iff_ne.mpr ?_
    rintro rfl
    exact var.equals_notMem hb
  rw [List.span_eq_takeWhile_dropWhile, List.takeWhile_append_of_pos hname,
    List.dropWhile_append_of_pos hname]
  exact congrArg (·, _) (List.append_nil _)

theorem span_fragment (fragment : Fragment) :
    fragment.text.span (· != 61) = (fragment.text, []) := by
  have htext : ∀ b ∈ fragment.text, (b != 61) = true := by
    intro b hb
    refine bne_iff_ne.mpr ?_
    rintro rfl
    exact fragment.equals_notMem hb
  rw [List.span_eq_takeWhile_dropWhile, List.takeWhile_eq_self_iff.mpr htext,
    List.dropWhile_eq_nil_iff.mpr htext]

theorem insertVariable_text (vars : Environment) (entry : Entry) (key : Bytes) :
    insertVariable vars entry.text key = (entry.valueOf key).or (vars key) := by
  cases entry with
  | inl var =>
      rw [insertVariable, Entry.text, span_variable, Entry.valueOf]
      by_cases hkey : var.name = key
      · subst hkey
        rw [if_pos rfl]
        exact Function.update_self _ _ _
      · rw [if_neg hkey]
        exact Function.update_of_ne (Ne.symm hkey) _ _
  | inr fragment =>
      rw [insertVariable, Entry.text, span_fragment]
      rfl

theorem foldl_partsOf (content : Bytes) (vars : Environment) :
    (partsOf nul content).foldl insertVariable vars =
      (content.splitOn nul).foldl insertVariable vars := by
  obtain ⟨front, last, hparts⟩ : ∃ front last, content.splitOn nul = front ++ [last] :=
    (List.eq_nil_or_concat' _).resolve_left (List.splitOn_ne_nil nul content)
  rw [partsOf, hparts]
  cases last with
  | nil => simp [insertVariable_nil]
  | cons b rest => simp

theorem foldl_content {m : Environment} (rendering : Rendering m) (final : Bool)
    (vars : Environment) :
    (partsOf nul (rendering.content final)).foldl insertVariable vars =
      (rendering.entries.map Entry.text).foldl insertVariable vars := by
  have hnul : ∀ text ∈ rendering.entries.map Entry.text, nul ∉ text := by
    intro text htext
    obtain ⟨entry, -, rfl⟩ := List.mem_map.mp htext
    exact entry.nul_notMem_text
  rw [foldl_partsOf, Rendering.content]
  generalize rendering.entries.map Entry.text = texts at hnul ⊢
  by_cases hnone : texts = []
  · subst hnone
    cases final <;> rfl
  cases final with
  | false =>
      rw [if_neg Bool.false_ne_true, List.append_nil, List.splitOn_intercalate nul hnul hnone]
  | true =>
      have hlast : ∀ text ∈ texts ++ [[]], nul ∉ text := by
        intro text htext
        rcases List.mem_append.mp htext with htext | htext
        · exact hnul text htext
        · simp [List.mem_singleton.mp htext]
      have hconcat := TextSplitting.intercalate_concat [nul] hnone []
      rw [List.append_nil] at hconcat
      rw [if_pos rfl, ← hconcat, List.splitOn_intercalate nul hlast (by simp), List.foldl_append]
      rfl

/-- The entries give back the environment they were made of. -/
theorem foldl_entries {m : Environment} (rendering : Rendering m) :
    (rendering.entries.map Entry.text).foldl insertVariable (fun _ => none) = m := by
  funext key
  have hlast := @foldl_last _ _ _ (fun vars entry => insertVariable vars (Entry.text entry))
    (fun vars : Environment => vars key) (Entry.valueOf key)
    (fun vars entry => insertVariable_text vars entry key) rendering.entries fun _ => none
  rw [List.foldl_map]
  refine hlast.trans ?_
  have hmem : ∀ value, value ∈ rendering.entries.filterMap (Entry.valueOf key) ↔
      m key = some value := by
    intro value
    rw [rendering.mem_iff, List.mem_filterMap]
    constructor
    · rintro ⟨entry | fragment, hentry, hvalue⟩
      · rw [Entry.valueOf] at hvalue
        split at hvalue
        · next hname => exact ⟨entry, hentry, hname, Option.some.inj hvalue⟩
        · cases hvalue
      · cases hvalue
    · rintro ⟨var, hvar, hname, rfl⟩
      exact ⟨.inl var, hvar, if_pos hname⟩
  rw [Option.or_none]
  cases hget : (rendering.entries.filterMap (Entry.valueOf key)).getLast? with
  | none =>
      rw [List.getLast?_eq_none_iff] at hget
      cases hkey : m key with
      | none => rfl
      | some value =>
          have hvalue := (hmem value).mpr hkey
          rw [hget] at hvalue
          cases hvalue
  | some value => exact ((hmem value).mp (List.mem_of_getLast? hget)).symm

section Reading

variable {content : Bytes}

theorem yieldsParts_showing (file : File) :
    YieldsParts (showing content) file (partsOf nul content) id := fun _ _ _ h => h

theorem environmentLoop_terminates (file : File) :
    (Program.iterate (environmentRound file) (fun _ => none) .done).Terminates
      (showing content) 0 := by
  have hround : ∀ vars n, (environmentRound file vars).Terminates (showing content) n := by
    rintro vars n (e | _ | var) _ _
    · trivial
    · trivial
    · trivial
  refine .iterate (fun vars n => vars = collected (partsOf nul content) n)
    (fun _ n => (partsOf nul content).length - n) (fun vars n h => ⟨hround vars n, ?_⟩) rfl
  refine Program.wp_post (environmentRound_wp (yieldsParts_showing file) h) fun o n' ho => ?_
  rcases o with (vars' | vars') | e | h
  · obtain ⟨hcollected, hn, rfl⟩ : _ ∧ n < (partsOf nul content).length ∧ n' = n + 1 := ho
    refine ⟨hcollected, ?_⟩
    omega
  · trivial
  · trivial
  · trivial

end Reading

/-- `read_environment` of what an environment is written as comes to an end, and always
with that environment. -/
theorem readEnvironment_renders {m : Environment} (rendering : Rendering m) (final : Bool)
    (pid : Pid) :
    (readEnvironment pid).Terminates (showing (rendering.content final)) 0 ∧
      ∀ (o : Outcome Halt CmdError Environment) (n : Nat),
        (readEnvironment pid).Runs (showing (rendering.content final)) 0 o n → o = .value m := by
  constructor
  · rintro (_ | path) n answer
    · obtain rfl : n = 0 := answer
      rintro _ _ ⟨rfl, rfl⟩
      exact environmentLoop_terminates _
    · obtain rfl : n = 0 := answer
      rintro _ _ ⟨rfl, rfl⟩
      exact environmentLoop_terminates _
  · have hloop : ∀ file, (Program.iterate (environmentRound file) (fun _ => none) .done).wp
        (showing (rendering.content final)) (fun _ _ => True) (fun o _ => o = .value m) 0 := by
      intro file
      refine Program.wp_post (environmentLoop_wp (yieldsParts_showing file) rfl) fun o n ho => ?_
      rw [ho, foldl_content, foldl_entries]
    have hvalue : (readEnvironment pid).wp (showing (rendering.content final)) (fun _ _ => True)
        (fun o _ => o = .value m) 0 := by
      refine ⟨trivial, ?_⟩
      rintro (_ | path) n answer
      · obtain rfl : n = 0 := answer
        refine ⟨trivial, ?_⟩
        rintro _ _ ⟨rfl, rfl⟩
        exact hloop _
      · obtain rfl : n = 0 := answer
        refine ⟨trivial, ?_⟩
        rintro _ _ ⟨rfl, rfl⟩
        exact hloop _
    intro o n run
    exact run.of_wp hvalue

section Example

/-- A variable whose value has an `=` of its own. -/
def optionsVariable : Variable where
  name := ascii "JAVA_OPTS"
  value := ascii "-Dmode=fast"
  name_ne := by decide
  equals_notMem := by decide
  nul_notMem_name := by decide
  nul_notMem_value := by decide

def emptyVariable : Variable where
  name := ascii "EMPTY"
  value := []
  name_ne := by decide
  equals_notMem := by decide
  nul_notMem_name := by decide
  nul_notMem_value := by decide

def wordFragment : Fragment where
  text := ascii "word"
  equals_notMem := by decide
  nul_notMem := by decide

def optionsEnvironment : Environment := fun key =>
  if key = ascii "JAVA_OPTS" then some (ascii "-Dmode=fast")
  else if key = ascii "EMPTY" then some []
  else none

def optionsRendering : Rendering optionsEnvironment where
  entries := [.inl optionsVariable, .inr wordFragment, .inl emptyVariable]
  mem_iff := by
    intro name value
    rw [optionsEnvironment]
    constructor
    · intro h
      split at h
      · next hname =>
          exact ⟨optionsVariable, by simp, hname.symm, Option.some.inj h⟩
      · split at h
        · next hname =>
            exact ⟨emptyVariable, by simp, hname.symm, Option.some.inj h⟩
        · cases h
    · rintro ⟨var, hvar, rfl, rfl⟩
      obtain rfl | rfl : var = optionsVariable ∨ var = emptyVariable := by simpa using hvar
      · rfl
      · rfl

theorem exists_answer_showing (content : Bytes) (n : Nat) (c : Syscall) :
    ∃ r n', showing content n c r n' := by
  have refused : c.Answer := c.refused
  cases c with
  | openFile path mode => exact ⟨.ok (), n, rfl, rfl⟩
  | nextSplit file delimiter => exact ⟨_, _, rfl, rfl⟩
  | _ => exact ⟨refused, n, rfl⟩

theorem readEnvironment_renders_options :
    optionsRendering.content false =
        ascii "JAVA_OPTS=-Dmode=fast" ++ nul :: ascii "word" ++ nul :: ascii "EMPTY=" ∧
      ∃ n, (readEnvironment ⟨1, by decide⟩).Runs (showing (optionsRendering.content false)) 0
        (.value optionsEnvironment) n := by
  refine ⟨by decide, ?_⟩
  obtain ⟨hends, hvalue⟩ := readEnvironment_renders optionsRendering false ⟨1, by decide⟩
  obtain ⟨o, n, run⟩ := hends.exists_runs (exists_answer_showing _)
  obtain rfl := hvalue o n run
  exact ⟨n, run⟩

end Example

end Cntr.EnvironmentRendering
