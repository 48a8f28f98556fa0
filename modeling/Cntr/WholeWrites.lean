import Cntr.SystemCalls

namespace Cntr.WholeWrites

open Cntr.ByteText
open Cntr.CallTree
open Cntr.SystemCalls

variable {ε : Type}

/-- One round of the loop of `Write::write_all`, with what is left to write. -/
def writeAllRound (file : File) (rest : Bytes) : Sys ε (Bytes ⊕ Except IoError Unit) :=
  match rest with
  | [] => return .inr (.ok ())
  | _ :: _ => do
      match ← sys (.write file rest) with
      | .ok written =>
          if written.val = 0 then return .inr (.error .writeZero)
          else return .inl (rest.drop written)
      | .error e =>
          if e = .interrupted then return .inl rest else return .inr (.error e)

/-- `Write::write_all`; the caller gets the error as a value. -/
def writeAll (file : File) (bytes : Bytes) : Sys ε (Except IoError Unit) :=
  .iterate (writeAllRound file) bytes .done

/-- The bytes that a call wrote to a file. -/
def writtenBy (file : File) : Event linux → Bytes
  | ⟨.write file' bytes, .ok written⟩ => if file' = file then bytes.take written else []
  | _ => []

def writtenTo (file : File) (log : Log) : Bytes := log.flatMap (writtenBy file)

@[simp] theorem writtenTo_nil (file : File) : writtenTo file [] = [] := rfl

@[simp] theorem writtenTo_append (file : File) (log log' : Log) :
    writtenTo file (log ++ log') = writtenTo file log ++ writtenTo file log' :=
  List.flatMap_append

@[simp] theorem writtenTo_singleton (file : File) (ev : Event linux) :
    writtenTo file [ev] = writtenBy file ev := by
  simp [writtenTo]

/-- A write that `write_all` does not try again. -/
def WriteFailed : Event linux → Prop
  | ⟨.write _ _, .ok written⟩ => written.val = 0
  | ⟨.write _ _, .error e⟩ => e ≠ .interrupted
  | _ => False

def IsWriteTo (file : File) (ev : Event linux) : Prop :=
  ∃ bytes r, ev = ⟨.write file bytes, r⟩

/-- The calls `write_all` made, all of them writes to its file, and its result. -/
inductive WholeWrite (file : File) (bytes : Bytes) :
    Except IoError Unit → Log → Prop where
  | complete {writes : Log} (only : ∀ ev ∈ writes, IsWriteTo file ev)
      (calm : ∀ ev ∈ writes, ¬WriteFailed ev) (whole : writtenTo file writes = bytes) :
      WholeWrite file bytes (.ok ()) writes
  | broken {writes : Log} {ev : Event linux} {e : IoError}
      (only : ∀ ev' ∈ writes, IsWriteTo file ev') (last : IsWriteTo file ev)
      (failed : WriteFailed ev) (partly : (writtenTo file writes).length < bytes.length) :
      WholeWrite file bytes (.error e) (writes ++ [ev])

theorem WholeWrite.of_ok {file : File} {bytes : Bytes} {writes : Log}
    (h : WholeWrite file bytes (.ok ()) writes) :
    (∀ ev ∈ writes, IsWriteTo file ev) ∧ (∀ ev ∈ writes, ¬WriteFailed ev) ∧
      writtenTo file writes = bytes := by
  cases h with
  | complete only calm whole => exact ⟨only, calm, whole⟩

theorem writtenBy_of_writeFailed {file : File} {ev : Event linux} (h : WriteFailed ev) :
    writtenBy file ev = [] := by
  rcases ev with ⟨c, r⟩
  cases c with
  | write file' bytes =>
      cases r with
      | error e => rfl
      | ok written =>
          have hzero : written.val = 0 := h
          simp [writtenBy, hzero]
  | _ => exact h.elim

theorem WholeWrite.of_error {file : File} {bytes : Bytes} {e : IoError} {writes : Log}
    (h : WholeWrite file bytes (.error e) writes) :
    (∀ ev ∈ writes, IsWriteTo file ev) ∧ (∃ ev ∈ writes, WriteFailed ev) ∧
      (writtenTo file writes).length < bytes.length := by
  cases h with
  | @broken writes ev _ only last failed partly =>
      refine ⟨fun ev' hmem => ?_, ⟨ev, by simp, failed⟩, ?_⟩
      · rcases List.mem_append.mp hmem with hmem | hmem
        · exact only ev' hmem
        · rwa [List.mem_singleton.mp hmem]
      · rw [writtenTo_append, writtenTo_singleton, writtenBy_of_writeFailed failed,
          List.append_nil]
        exact partly

theorem WholeWrite.only {file : File} {bytes : Bytes} {r : Except IoError Unit} {writes : Log}
    (h : WholeWrite file bytes r writes) : ∀ ev ∈ writes, IsWriteTo file ev := by
  cases r with
  | ok _ => exact h.of_ok.1
  | error e => exact h.of_error.1

/-- The loop of `write_all` after some calls, none of which failed for good. -/
structure Writing (file : File) (bytes : Bytes) (log : Log) (rest : Bytes)
    (log' : Log) (writes : Log) : Prop where
  log_eq : log' = log ++ writes
  only : ∀ ev ∈ writes, IsWriteTo file ev
  calm : ∀ ev ∈ writes, ¬WriteFailed ev
  whole : writtenTo file writes ++ rest = bytes

theorem Writing.snoc {file : File} {bytes rest rest' : Bytes} {log log' : Log}
    {writes : Log} (h : Writing file bytes log rest log' writes)
    {ev : Event linux} (hfile : IsWriteTo file ev) (hcalm : ¬WriteFailed ev)
    (hrest : writtenBy file ev ++ rest' = rest) :
    Writing file bytes log rest' (log' ++ [ev]) (writes ++ [ev]) where
  log_eq := by rw [h.log_eq, List.append_assoc]
  only := by
    intro ev' hmem
    rcases List.mem_append.mp hmem with hmem | hmem
    · exact h.only ev' hmem
    · rwa [List.mem_singleton.mp hmem]
  calm := by
    intro ev' hmem
    rcases List.mem_append.mp hmem with hmem | hmem
    · exact h.calm ev' hmem
    · rwa [List.mem_singleton.mp hmem]
  whole := by
    rw [writtenTo_append, writtenTo_singleton, List.append_assoc, hrest]
    exact h.whole

theorem writeAll_wp {file : File} {bytes : Bytes} {G : Log → Syscall → Prop}
    {Q : Outcome Halt ε (Except IoError Unit) → Log → Prop}
    {log : Log}
    (hG : ∀ writes rest, (∀ ev ∈ writes, IsWriteTo file ev) → (∀ ev ∈ writes, ¬WriteFailed ev) →
      G (log ++ writes) (.write file rest))
    (hQ : ∀ r writes, WholeWrite file bytes r writes → Q (.value r) (log ++ writes)) :
    (writeAll (ε := ε) file bytes).wp (tracing linux) G Q log := by
  refine ⟨fun rest log' => ∃ writes, Writing file bytes log rest log' writes,
    ⟨[], by simp, by simp, by simp, by simp⟩, fun rest log' hI => ?_⟩
  obtain ⟨writes, hI⟩ := hI
  cases rest with
  | nil =>
      have hwhole : writtenTo file writes = bytes := by simpa using hI.whole
      have hdone := hQ _ _ (.complete hI.only hI.calm hwhole)
      rwa [← hI.log_eq] at hdone
  | cons b rest =>
      simp only [writeAllRound, Program.bind_eq, Program.wp_call_tracing]
      refine ⟨?_, ?_⟩
      · rw [hI.log_eq]
        exact hG writes _ hI.only hI.calm
      have hpartly : (writtenTo file writes).length < bytes.length := by
        rw [← hI.whole, List.length_append, List.length_cons]
        omega
      have hbroken : ∀ (r : Syscall.Answer (.write file (b :: rest))) (e : IoError),
          WriteFailed ⟨.write file (b :: rest), r⟩ →
          Q (.value (.error e)) (log' ++ [⟨.write file (b :: rest), r⟩]) := by
        intro r e hfailed
        rw [hI.log_eq, List.append_assoc]
        exact hQ _ _ (.broken hI.only ⟨_, _, rfl⟩ hfailed hpartly)
      rintro (e | written)
      · by_cases he : e = .interrupted
        · have hcalm : ¬WriteFailed ⟨.write file (b :: rest), .error e⟩ := not_not_intro he
          simp only [he, if_true] at hcalm ⊢
          exact ⟨_, hI.snoc ⟨_, _, rfl⟩ hcalm rfl⟩
        · simp only [he, if_false]
          exact hbroken (.error e) e he
      · by_cases hzero : written.val = 0
        · simp only [hzero, if_true]
          exact hbroken (.ok written) _ hzero
        · simp only [hzero, if_false]
          refine ⟨_, hI.snoc ⟨_, _, rfl⟩ hzero ?_⟩
          simp [writtenBy]

end Cntr.WholeWrites
