import Cntr.SystemCalls

namespace Cntr.FilePairBuffer

open Cntr.ByteText
open Cntr.CallTree
open Cntr.SystemCalls

def bufSize : Nat := 8192

/-- `[u8; BUF_SIZE]`. -/
structure Buffer where
  bytes : Bytes
  length_eq : bytes.length = bufSize

namespace Buffer

def zero : Buffer := ⟨List.replicate bufSize 0, List.length_replicate⟩

/-- What `Read::read` makes of the buffer when it returns `data`. -/
def fill (buf : Buffer) (data : Bytes) (h : data.length ≤ bufSize) : Buffer :=
  ⟨data ++ buf.bytes.drop data.length, by
    rw [List.length_append, List.length_drop, buf.length_eq]
    omega⟩

/-- `&buf[lo..hi]`, which panics if the range is not one of the buffer. -/
def slice (buf : Buffer) (lo hi : Nat) : Option Bytes :=
  if lo ≤ hi ∧ hi ≤ bufSize then some ((buf.bytes.take hi).drop lo) else none

end Buffer

inductive FilePairState where
  | write
  | read
  deriving DecidableEq

structure FilePair where
  fromFile : File
  toFile : File
  buf : Buffer
  readOffset : Nat
  writeOffset : Nat
  state : FilePairState

namespace FilePair

variable {ε : Type}

def new (fromFile toFile : File) : FilePair where
  fromFile := fromFile
  toFile := toFile
  buf := .zero
  writeOffset := 0
  readOffset := 0
  state := .read

/-- The bytes that were read and still have to be written. -/
def pending (pair : FilePair) : Bytes :=
  (pair.buf.bytes.take pair.readOffset).drop pair.writeOffset

def afterWrite (pair : FilePair) (written : Nat) : FilePair :=
  if pair.readOffset ≤ pair.writeOffset + written then
    { pair with readOffset := 0, writeOffset := 0, state := .read }
  else
    { pair with writeOffset := pair.writeOffset + written, state := .write }

def write (pair : FilePair) : Sys ε (Bool × FilePair) :=
  match pair.buf.slice pair.writeOffset pair.readOffset with
  | none => .halt .panicked
  | some slice => do
      match ← sys (.write pair.toFile slice) with
      | .ok written => return (true, pair.afterWrite written)
      | .error _ => return (false, pair)

def read (pair : FilePair) : Sys ε (Bool × FilePair) := do
  match ← sys (.read pair.fromFile bufSize) with
  | .ok data =>
      write { pair with
        buf := pair.buf.fill data.1 data.2
        readOffset := data.1.length }
  | .error _ => return (false, pair)

end FilePair

def returnedBy (i : Nat) : Event linux → Bytes
  | ⟨.read (.ofPair j _) _, .ok data⟩ => if j = i then data.1 else []
  | _ => []

def acceptedBy (i : Nat) : Event linux → Bytes
  | ⟨.write (.ofPair j _) bytes, .ok written⟩ => if j = i then bytes.take written else []
  | _ => []

/-- All bytes that `from` of the pair at position `i` has returned. -/
def returned (i : Nat) (log : Log) : Bytes := log.flatMap (returnedBy i)

/-- All bytes that `to` of the pair at position `i` has accepted. -/
def accepted (i : Nat) (log : Log) : Bytes := log.flatMap (acceptedBy i)

@[simp] theorem returned_append (i : Nat) (log log' : Log) :
    returned i (log ++ log') = returned i log ++ returned i log' :=
  List.flatMap_append

@[simp] theorem accepted_append (i : Nat) (log log' : Log) :
    accepted i (log ++ log') = accepted i log ++ accepted i log' :=
  List.flatMap_append

@[simp] theorem returned_singleton (i : Nat) (ev : Event linux) :
    returned i [ev] = returnedBy i ev := by
  simp [returned]

@[simp] theorem accepted_singleton (i : Nat) (ev : Event linux) :
    accepted i [ev] = acceptedBy i ev := by
  simp [accepted]

/-- How many of the bytes it was offered a write to `to` of the pair at position `i` did
not take. -/
def leftBy (i : Nat) : Event linux → Option Nat
  | ⟨.write (.ofPair j _) bytes, .ok written⟩ =>
      if j = i then some (bytes.length - written) else none
  | _ => none

/-- What the last write to `to` of the pair at position `i` left over; nothing, if there
was none. -/
def leftOver (i : Nat) (log : Log) : Nat := ((log.filterMap (leftBy i)).getLast?).getD 0

theorem leftOver_snoc (i : Nat) (log : Log) (ev : Event linux) :
    leftOver i (log ++ [ev]) = (leftBy i ev).getD (leftOver i log) := by
  rw [leftOver, filterMap_concat]
  cases leftBy i ev with
  | none => rw [Option.toList_none, List.append_nil, Option.getD_none, leftOver]
  | some left => rw [Option.toList_some, List.getLast?_concat, Option.getD_some, Option.getD_some]

namespace FilePair

variable {ε : Type}

/-- The offsets and the state of a pair between two rounds. -/
structure Coherent (pair : FilePair) : Prop where
  write_le_read : pair.writeOffset ≤ pair.readOffset
  read_le_size : pair.readOffset ≤ bufSize
  of_read : pair.state = .read → pair.readOffset = 0 ∧ pair.writeOffset = 0
  of_write : pair.state = .write → pair.writeOffset < pair.readOffset

theorem coherent_new (fromFile toFile : File) : (new fromFile toFile).Coherent where
  write_le_read := Nat.le_refl 0
  read_le_size := Nat.zero_le bufSize
  of_read := fun _ => ⟨rfl, rfl⟩
  of_write := fun h => by cases h

theorem slice_eq_pending {pair : FilePair} (hle : pair.writeOffset ≤ pair.readOffset)
    (hsize : pair.readOffset ≤ bufSize) :
    pair.buf.slice pair.writeOffset pair.readOffset = some pair.pending := by
  simp [Buffer.slice, pending, hle, hsize]

theorem pending_of_read {pair : FilePair} (h : pair.Coherent) (hread : pair.state = .read) :
    pair.pending = [] := by
  obtain ⟨hr, hw⟩ := h.of_read hread
  simp [pending, hr, hw]

theorem afterWrite_coherent {pair : FilePair} (hsize : pair.readOffset ≤ bufSize)
    (written : Nat) :
    (pair.afterWrite written).Coherent := by
  by_cases h : pair.readOffset ≤ pair.writeOffset + written
  · rw [afterWrite, if_pos h]
    exact ⟨Nat.le_refl 0, Nat.zero_le bufSize, fun _ => ⟨rfl, rfl⟩, fun hs => (by cases hs)⟩
  · rw [afterWrite, if_neg h]
    have hlt : pair.writeOffset + written < pair.readOffset := by omega
    exact ⟨Nat.le_of_lt hlt, hsize, fun hs => (by cases hs), fun _ => hlt⟩

theorem afterWrite_pending (pair : FilePair) (written : Nat) :
    (pair.afterWrite written).pending = pair.pending.drop written := by
  by_cases h : pair.readOffset ≤ pair.writeOffset + written
  · rw [afterWrite, if_pos h]
    have hlen : (pair.buf.bytes.take pair.readOffset).length ≤ pair.writeOffset + written :=
      Nat.le_trans (List.length_take_le _ _) h
    simp [pending, List.drop_drop, List.drop_eq_nil_of_le hlen]
  · rw [afterWrite, if_neg h]
    simp [pending, List.drop_drop]

theorem afterWrite_fromFile (pair : FilePair) (written : Nat) :
    (pair.afterWrite written).fromFile = pair.fromFile := by
  unfold afterWrite
  split <;> rfl

theorem afterWrite_toFile (pair : FilePair) (written : Nat) :
    (pair.afterWrite written).toFile = pair.toFile := by
  unfold afterWrite
  split <;> rfl

end FilePair

/-- The failures after which shovel gives up: every failed read or write, and a
failed `poll` that was not just interrupted. -/
def Failed : Event linux → Prop
  | ⟨.read _ _, .error _⟩ => True
  | ⟨.write _ _, .error _⟩ => True
  | ⟨.poll _ _, .error e⟩ => e ≠ Errno.intr
  | _ => False

def Calm (log : Log) : Prop := ∀ ev ∈ log, ¬Failed ev

theorem Calm.snoc {log : Log} (h : Calm log) {ev : Event linux} (hev : ¬Failed ev) :
    Calm (log ++ [ev]) := by
  intro ev' hmem
  rcases List.mem_append.mp hmem with hmem | hmem
  · exact h ev' hmem
  · rw [List.mem_singleton.mp hmem]
    exact hev

/-- No byte of the pair at position `i` moves from `log` to `log'`. -/
def SameTraffic (i : Nat) (log log' : Log) : Prop :=
  returned i log' = returned i log ∧ accepted i log' = accepted i log

theorem SameTraffic.trans {i : Nat} {log log' log'' : Log} (h : SameTraffic i log log')
    (h' : SameTraffic i log' log'') : SameTraffic i log log'' :=
  ⟨h'.1.trans h.1, h'.2.trans h.2⟩

/-- Nothing concerns the pair at position `i` from `log` to `log'`. -/
structure Untouched (i : Nat) (log log' : Log) : Prop where
  traffic : SameTraffic i log log'
  left : leftOver i log' = leftOver i log

theorem Untouched.refl (i : Nat) (log : Log) : Untouched i log log := ⟨⟨rfl, rfl⟩, rfl⟩

theorem Untouched.trans {i : Nat} {log log' log'' : Log} (h : Untouched i log log')
    (h' : Untouched i log' log'') : Untouched i log log'' :=
  ⟨h.traffic.trans h'.traffic, h'.left.trans h.left⟩

theorem Untouched.snoc {i : Nat} {ev : Event linux} (hreturned : returnedBy i ev = [])
    (haccepted : acceptedBy i ev = []) (hleft : leftBy i ev = none) (log : Log) :
    Untouched i log (log ++ [ev]) := by
  constructor
  · simp [SameTraffic, hreturned, haccepted]
  · rw [leftOver_snoc, hleft, Option.getD_none]

/-- Only the pair at position `i` is concerned. -/
def Elsewhere (i : Nat) (log log' : Log) : Prop := ∀ j, j ≠ i → Untouched j log log'

theorem elsewhere_read (i : Nat) (fd : Fd) (size : Nat) (log : Log)
    (r : Syscall.Answer (.read (.ofPair i fd) size)) :
    Elsewhere i log (log ++ [⟨.read (.ofPair i fd) size, r⟩]) := by
  intro j hj
  apply Untouched.snoc
  · cases r <;> simp [returnedBy, Ne.symm hj]
  · rfl
  · rfl

theorem elsewhere_write (i : Nat) (fd : Fd) (bytes : Bytes) (log : Log)
    (r : Syscall.Answer (.write (.ofPair i fd) bytes)) :
    Elsewhere i log (log ++ [⟨.write (.ofPair i fd) bytes, r⟩]) := by
  intro j hj
  apply Untouched.snoc
  · rfl
  · cases r <;> simp [acceptedBy, Ne.symm hj]
  · cases r <;> simp [leftBy, Ne.symm hj]

/-- Nothing happens that concerns a pair. -/
def Idle (log log' : Log) : Prop :=
  (∀ i, Untouched i log log') ∧ (Calm log → Calm log')

theorem Idle.refl (log : Log) : Idle log log := ⟨fun i => .refl i log, id⟩

theorem Idle.trans {log log' log'' : Log} (h : Idle log log') (h' : Idle log' log'') :
    Idle log log'' :=
  ⟨fun i => (h.1 i).trans (h'.1 i), h'.2 ∘ h.2⟩

theorem Idle.snoc (log : Log) (ev : Event linux) (hreturned : ∀ i, returnedBy i ev = [])
    (haccepted : ∀ i, acceptedBy i ev = []) (hleft : ∀ i, leftBy i ev = none)
    (hev : ¬Failed ev) : Idle log (log ++ [ev]) :=
  ⟨fun i => .snoc (hreturned i) (haccepted i) (hleft i) log, fun h => h.snoc hev⟩

/-- A pair at position `i` between two rounds: what was read is what was written
and what is pending. -/
structure Settled (i : Nat) (pair : FilePair) (log : Log) : Prop
    extends FilePair.Coherent pair where
  fromFile : ∃ fd, pair.fromFile = .ofPair i fd
  toFile : ∃ fd, pair.toFile = .ofPair i fd
  accounted : accepted i log ++ pair.pending = returned i log
  left : leftOver i log = pair.pending.length

theorem Settled.of_untouched {i : Nat} {pair : FilePair} {log log' : Log}
    (h : Settled i pair log) (hsame : Untouched i log log') : Settled i pair log' := by
  refine { h with accounted := ?_, left := hsame.left.trans h.left }
  rw [hsame.traffic.1, hsame.traffic.2]
  exact h.accounted

/-- The last write tells whether anything is undelivered. -/
def Level (i : Nat) (log : Log) : Prop :=
  accepted i log = returned i log ↔ leftOver i log = 0

theorem Settled.level {i : Nat} {pair : FilePair} {log : Log} (h : Settled i pair log) :
    Level i log := by
  rw [Level, h.left, ← h.accounted, List.length_eq_zero_iff]
  exact List.self_eq_append_right

/-- The failed call of the pair at position `i` that ends the loop, with what
the pair still held at that moment. -/
inductive Broken (i : Nat) (log : Log) : Event linux → Prop where
  | read {fd : Fd} {size : Nat} {e : IoError} (drained : accepted i log = returned i log) :
      Broken i log ⟨.read (.ofPair i fd) size, .error e⟩
  | write {fd : Fd} {bytes : Bytes} {e : IoError}
      (offered : accepted i log ++ bytes = returned i log) :
      Broken i log ⟨.write (.ofPair i fd) bytes, .error e⟩

/-- A pair reads only when all it has read before has been written. -/
def ReadsDrained (log : Log) (c : Syscall) : Prop :=
  ∀ i fd size, c = .read (.ofPair i fd) size → accepted i log = returned i log

def PairServed {ε : Type} (i : Nat) (log : Log) :
    Outcome Halt ε (Bool × FilePair) → Log → Prop
  | .value (true, pair), log' => Settled i pair log' ∧ Calm log' ∧ Elsewhere i log log'
  | .value (false, _), log' =>
      ∃ pre ev, log' = pre ++ [ev] ∧ Broken i pre ev ∧ Calm pre ∧ Elsewhere i log pre
  | _, _ => False

namespace FilePair

variable {ε : Type}

theorem write_wp {pair : FilePair} {i : Nat} {log log₀ : Log}
    (hfrom : ∃ fd, pair.fromFile = .ofPair i fd) (hto : ∃ fd, pair.toFile = .ofPair i fd)
    (hle : pair.writeOffset ≤ pair.readOffset) (hsize : pair.readOffset ≤ bufSize)
    (haccounted : accepted i log ++ pair.pending = returned i log) (hcalm : Calm log)
    (helse : Elsewhere i log₀ log) :
    (pair.write (ε := ε)).wp (tracing linux) ReadsDrained (PairServed i log₀) log := by
  rw [write, slice_eq_pending hle hsize]
  obtain ⟨fromFile, toFile, buf, readOffset, writeOffset, state⟩ := pair
  obtain ⟨fd, rfl⟩ : ∃ fd, toFile = .ofPair i fd := hto
  refine ⟨fun j fd' size hc => by simp at hc, ?_⟩
  rintro (e | written) _ rfl
  · exact ⟨log, _, rfl, .write haccounted, hcalm, helse⟩
  · refine ⟨⟨afterWrite_coherent hsize written, ?_, ?_, ?_, ?_⟩, hcalm.snoc id,
      fun j hj => (helse j hj).trans (elsewhere_write i fd _ _ _ j hj)⟩
    · rwa [afterWrite_fromFile]
    · exact ⟨fd, afterWrite_toFile _ written⟩
    · simp [afterWrite_pending, acceptedBy, returnedBy, ← haccounted]
    · rw [leftOver_snoc, afterWrite_pending, List.length_drop]
      simp [leftBy]

theorem read_wp {pair : FilePair} {i : Nat} {log : Log} (h : Settled i pair log)
    (hstate : pair.state = .read) (hcalm : Calm log) :
    (pair.read (ε := ε)).wp (tracing linux) ReadsDrained (PairServed i log) log := by
  obtain ⟨fd, hfd⟩ := h.fromFile
  have hdrained : accepted i log = returned i log := by
    simpa [pending_of_read h.toCoherent hstate] using h.accounted
  have hzero : pair.writeOffset = 0 := (h.of_read hstate).2
  obtain ⟨fromFile, toFile, buf, readOffset, writeOffset, state⟩ := pair
  obtain rfl : fromFile = .ofPair i fd := hfd
  obtain rfl : writeOffset = 0 := hzero
  refine ⟨fun j fd' size hc => ?_, ?_⟩
  · obtain ⟨⟨rfl, -⟩, -⟩ : (i = j ∧ fd = fd') ∧ bufSize = size := by simpa using hc
    exact hdrained
  rintro (e | ⟨data, hdata⟩) _ rfl
  · exact ⟨log, _, rfl, .read hdrained, hcalm, fun j _ => .refl j log⟩
  · refine write_wp ⟨fd, rfl⟩ h.toFile (Nat.zero_le _) hdata ?_ (hcalm.snoc id)
      (elsewhere_read i fd _ _ _)
    simp [pending, Buffer.fill, acceptedBy, returnedBy, hdrained]

end FilePair

end Cntr.FilePairBuffer
