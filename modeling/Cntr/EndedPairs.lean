import Cntr.ShovelLoop
import Mathlib.Data.List.Induction
import Mathlib.Data.List.Nodup
import Mathlib.Data.List.Perm.Subperm

/-!
What shovel does with a pair whose `from` has come to its end.
-/

namespace Cntr.EndedPairs

open Cntr.ByteText
open Cntr.CallTree
open Cntr.SystemCalls
open Cntr.FilePairBuffer
open Cntr.ShovelLoop

/-- Every element of a list satisfies `P` after the elements before it. -/
def Throughout {α : Type} (P : List α → α → Prop) (xs : List α) : Prop :=
  ∀ pre x post, xs = pre ++ x :: post → P pre x

theorem throughout_nil {α : Type} (P : List α → α → Prop) : Throughout P [] := by
  intro pre x post h
  simp at h

theorem throughout_snoc {α : Type} {P : List α → α → Prop} {xs : List α} {x : α} :
    Throughout P (xs ++ [x]) ↔ Throughout P xs ∧ P xs x := by
  constructor
  · intro h
    refine ⟨fun pre y post hxs => h pre y (post ++ [x]) ?_, h xs x [] rfl⟩
    rw [hxs, List.append_assoc, List.cons_append]
  · rintro ⟨h, hlast⟩ pre y post heq
    rcases List.eq_nil_or_concat post with rfl | ⟨post', z, rfl⟩
    · obtain ⟨rfl, hy⟩ := List.append_inj' heq rfl
      obtain rfl := List.singleton_inj.mp hy
      exact hlast
    · have hsnoc : xs ++ [x] = (pre ++ y :: post') ++ [z] := by
        rw [heq, List.concat_eq_append, List.append_assoc, List.cons_append]
      exact h pre y post' (List.append_inj' hsnoc rfl).1

/-- The position of the pair whose `from` the call reads. -/
def readBy : Syscall → Option Nat
  | .read (.ofPair i _) _ => some i
  | _ => none

/-- The position of the pair whose `from` reports its end: the read returned no
bytes. -/
def endedBy : Event linux → Option Nat
  | ⟨.read (.ofPair i _) _, .ok data⟩ => if data.1 = [] then some i else none
  | _ => none

/-- The pairs whose `from` has reported its end, as often as it did. -/
def ended (log : Log) : List Nat := log.filterMap endedBy

/-- No pair is read that has come to its end. -/
def StopsAtEnd (log : Log) : Prop :=
  Throughout (fun pre ev => ∀ i, readBy ev.1 = some i → i ∉ ended pre) log

def Polled : Event linux → Prop
  | ⟨.poll _ _, .ok _⟩ => True
  | _ => False

/-- Once some pair has come to its end, `poll` does not succeed any more. -/
def NeverPolledAgain (log : Log) : Prop :=
  Throughout (fun pre ev => Polled ev → ended pre = []) log

/-- A file at its end stays there and is reported as ready, and a write of no
bytes succeeds. -/
def Persistent (log : Log) : Event linux → Prop
  | ⟨.read (.ofPair i fd) size, r⟩ =>
      i ∈ ended log → endedBy ⟨.read (.ofPair i fd) size, r⟩ = some i
  | ⟨.write _ bytes, r⟩ => bytes = [] → ∃ written, r = .ok written
  | ⟨.poll fds _, .ok ready⟩ => ∀ (k i : Nat) (fd : Fd),
      fds[k]? = some (⟨.ofPair i fd, .pollIn⟩ : PollFd) → i ∈ ended log →
      ready.1[k]? = some true
  | _ => True

theorem readBy_of_endedBy {ev : Event linux} {i : Nat} (h : endedBy ev = some i) :
    readBy ev.1 = some i := by
  unfold endedBy at h
  split at h
  · split at h
    · exact h
    · cases h
  · cases h

theorem ended_snoc (log : Log) (ev : Event linux) :
    ended (log ++ [ev]) = ended log ++ (endedBy ev).toList :=
  filterMap_concat endedBy log ev

theorem stopsAtEnd_snoc {log : Log} {ev : Event linux} :
    StopsAtEnd (log ++ [ev]) ↔
      StopsAtEnd log ∧ ∀ i, readBy ev.1 = some i → i ∉ ended log := throughout_snoc

theorem neverPolledAgain_snoc {log : Log} {ev : Event linux} :
    NeverPolledAgain (log ++ [ev]) ↔
      NeverPolledAgain log ∧ (Polled ev → ended log = []) := throughout_snoc

/-- Between two logs exactly the pairs of `P` that had come to their end were
read, and each no more than once; `poll` was not called. -/
structure Served (P : Nat → Prop) (log log' : Log) : Prop where
  polled : NeverPolledAgain log' ↔ NeverPolledAgain log
  ended : ∀ i, ¬P i → (i ∈ ended log' ↔ i ∈ ended log)
  stops : StopsAtEnd log' ↔ StopsAtEnd log ∧ ∀ i, P i → i ∉ EndedPairs.ended log

namespace Served

theorem none {P : Nat → Prop} {log : Log} (h : ∀ i, P i → i ∉ EndedPairs.ended log) :
    Served P log log :=
  ⟨Iff.rfl, fun _ _ => Iff.rfl, ⟨fun hstops => ⟨hstops, h⟩, And.left⟩⟩

theorem trans {P P' : Nat → Prop} {log log' log'' : Log} (h : Served P log log')
    (h' : Served P' log' log'') (hdisjoint : ∀ i, P' i → ¬P i) :
    Served (fun i => P i ∨ P' i) log log'' := by
  refine ⟨h'.polled.trans h.polled, fun i hi => ?_, ?_⟩
  · obtain ⟨hP, hP'⟩ := not_or.mp hi
    exact (h'.ended i hP').trans (h.ended i hP)
  · rw [h'.stops, h.stops]
    constructor
    · rintro ⟨⟨hstops, hfirst⟩, hrest⟩
      refine ⟨hstops, fun i hi => ?_⟩
      rcases hi with hi | hi
      · exact hfirst i hi
      · rw [← h.ended i (hdisjoint i hi)]
        exact hrest i hi
    · rintro ⟨hstops, hnot⟩
      refine ⟨⟨hstops, fun i hi => hnot i (.inl hi)⟩, fun i hi => ?_⟩
      rw [h.ended i (hdisjoint i hi)]
      exact hnot i (.inr hi)

theorem congr {P P' : Nat → Prop} {log log' : Log} (h : Served P log log')
    (hP : ∀ i, P i ↔ P' i) : Served P' log log' := by
  obtain rfl : P = P' := funext fun i => propext (hP i)
  exact h

theorem snoc_other {P : Nat → Prop} {log log' : Log} (h : Served P log log') (ev : Event linux)
    (hread : readBy ev.1 = Option.none) (hended : endedBy ev = Option.none)
    (hpoll : ¬Polled ev) : Served P log (log' ++ [ev]) := by
  have heq : EndedPairs.ended (log' ++ [ev]) = EndedPairs.ended log' := by
    rw [ended_snoc, hended, Option.toList_none, List.append_nil]
  refine ⟨?_, fun i hi => ?_, ?_⟩
  · rw [neverPolledAgain_snoc, h.polled]
    exact and_iff_left fun hpolled => absurd hpolled hpoll
  · rw [heq, h.ended i hi]
  · rw [stopsAtEnd_snoc, h.stops]
    exact and_iff_left fun i hi => by cases hread.symm.trans hi

end Served

/-- A pair at position `i` between two rounds; one that has come to its end has
nothing left to write. -/
structure Waiting (i : Nat) (pair : FilePair) (log : Log) : Prop
    extends FilePair.Coherent pair where
  fromFile : ∃ fd, pair.fromFile = .ofPair i fd
  toFile : ∃ fd, pair.toFile = .ofPair i fd
  ended : i ∈ ended log → pair.state = .read

/-- Nothing is read that has come to its end, unless `poll` succeeded after that. -/
def Allowed (log : Log) (c : Syscall) : Prop :=
  NeverPolledAgain log → ∀ i, readBy c = some i → i ∉ ended log

/-- Serving the pairs of `P` has ended the loop. -/
def Broke (P : Nat → Prop) (log log' : Log) : Prop :=
  (NeverPolledAgain log' ↔ NeverPolledAgain log) ∧
    (StopsAtEnd log → (∀ i, P i → i ∉ ended log) → StopsAtEnd log')

variable {ε : Type}

/-- The result of serving the pair at position `i`. -/
abbrev PairServed (i : Nat) (log : Log) : Outcome Halt ε (Bool × FilePair) → Log → Prop :=
  Transferred Waiting (fun i => Served (· = i)) (fun i => Broke (· = i)) i log

theorem write_wp {pair : FilePair} {i : Nat} {log log₀ : Log}
    (hfrom : ∃ fd, pair.fromFile = .ofPair i fd) (hto : ∃ fd, pair.toFile = .ofPair i fd)
    (hle : pair.writeOffset ≤ pair.readOffset) (hsize : pair.readOffset ≤ bufSize)
    (hended : i ∈ ended log → pair.readOffset = 0) (hserved : Served (· = i) log₀ log) :
    (pair.write (ε := ε)).wp (recording Persistent) Allowed (PairServed i log₀) log := by
  rw [FilePair.write, FilePair.slice_eq_pending hle hsize]
  obtain ⟨fromFile, toFile, buf, readOffset, writeOffset, state⟩ := pair
  obtain ⟨fd, rfl⟩ : ∃ fd, toFile = .ofPair i fd := hto
  simp only [Program.bind_eq, Program.wp_call_recording]
  refine ⟨fun _ j hj => (by cases hj), ?_⟩
  intro r hr
  have hsame := hserved.snoc_other ⟨.write (.ofPair i fd) _, r⟩ rfl rfl id
  rcases r with e | written
  · exact ⟨hsame.polled, fun hstops hnot => hsame.stops.mpr ⟨hstops, hnot⟩⟩
  · refine ⟨⟨FilePair.afterWrite_coherent hsize written, ?_, ?_, ?_⟩, hsame⟩
    · rwa [FilePair.afterWrite_fromFile]
    · exact ⟨fd, FilePair.afterWrite_toFile _ written⟩
    · intro hmem
      rw [ended_snoc] at hmem
      have hzero : readOffset = 0 := hended (by simpa [endedBy] using hmem)
      have hread : readOffset ≤ writeOffset + written := by omega
      rw [FilePair.afterWrite, if_pos hread]

theorem read_wp {pair : FilePair} {i : Nat} {log : Log} (h : Waiting i pair log)
    (hstate : pair.state = .read) (hallowed : NeverPolledAgain log → i ∉ ended log) :
    (pair.read (ε := ε)).wp (recording Persistent) Allowed (PairServed i log) log := by
  obtain ⟨fd, hfd⟩ := h.fromFile
  have hzero : pair.writeOffset = 0 := (h.of_read hstate).2
  obtain ⟨fromFile, toFile, buf, readOffset, writeOffset, state⟩ := pair
  obtain rfl : fromFile = .ofPair i fd := hfd
  obtain rfl : writeOffset = 0 := hzero
  rw [FilePair.read, Program.bind_eq, Program.wp_call_recording]
  refine ⟨fun hquiet j hj => ?_, fun r hr => ?_⟩
  · obtain rfl := Option.some.inj hj
    exact hallowed hquiet
  have hserved : Served (· = i) log (log ++ [⟨.read (.ofPair i fd) bufSize, r⟩]) := by
    refine ⟨?_, fun j hj => ?_, ?_⟩
    · rw [neverPolledAgain_snoc]
      exact and_iff_left fun hpolled => hpolled.elim
    · rw [ended_snoc, List.mem_append, Option.mem_toList]
      refine or_iff_left fun hmem => hj ?_
      exact (Option.some.inj (readBy_of_endedBy hmem)).symm
    · rw [stopsAtEnd_snoc]
      refine and_congr_right fun _ => ⟨fun hnot j hj => ?_, fun hnot j hj => ?_⟩
      · subst hj
        exact hnot j rfl
      · obtain rfl := Option.some.inj hj
        exact hnot i rfl
  rcases r with e | ⟨data, hdata⟩
  · exact ⟨hserved.polled, fun hstops hnot => hserved.stops.mpr ⟨hstops, hnot⟩⟩
  · refine write_wp ⟨fd, rfl⟩ h.toFile (Nat.zero_le _) hdata (fun hmem => ?_) hserved
    have hlast : endedBy ⟨.read (.ofPair i fd) bufSize, .ok ⟨data, hdata⟩⟩ = some i := by
      rw [ended_snoc, List.mem_append, Option.mem_toList] at hmem
      rcases hmem with hmem | hmem
      · exact hr hmem
      · exact hmem
    rw [endedBy] at hlast
    split at hlast
    · next hempty => exact List.length_eq_zero_iff.mpr hempty
    · cases hlast

theorem transfer_wp {pair : FilePair} {i : Nat} {log : Log} (h : Waiting i pair log)
    (hallowed : NeverPolledAgain log → i ∉ ended log) :
    (transfer (ε := ε) pair).wp (recording Persistent) Allowed (PairServed i log) log := by
  unfold transfer
  split
  · next hstate => exact read_wp h hstate hallowed
  · next hstate =>
      have hnot : i ∉ ended log := fun hmem => by cases hstate.symm.trans (h.ended hmem)
      apply write_wp h.fromFile h.toFile h.write_le_read h.read_le_size
      · exact fun hmem => absurd hmem hnot
      · exact .none fun j hj => hj ▸ hnot

/-- A pair that is still to be served in a round. -/
structure Due (i : Nat) (ready : Bool) (pair : FilePair) (log : Log) : Prop where
  waiting : Waiting i pair log
  ready_of_ended : i ∈ ended log → ready = true
  allowed : NeverPolledAgain log → i ∉ ended log

theorem Waiting.of_served {i j : Nat} {pair : FilePair} {log log' : Log} (hne : j ≠ i)
    (hserved : Served (· = i) log log') (h : Waiting j pair log) : Waiting j pair log' :=
  { h with ended := fun hmem => h.ended ((hserved.ended j hne).mp hmem) }

theorem serving : Serving ε (recording Persistent) Allowed Due Waiting
    (fun i => Served (· = i)) (fun i => Broke (· = i)) where
  before hlt hserved h := by
    have hended := hserved.ended _ (Nat.ne_of_gt hlt)
    refine ⟨h.waiting.of_served (Nat.ne_of_gt hlt) hserved, fun hmem => ?_, fun hquiet => ?_⟩
    · exact h.ready_of_ended (hended.mp hmem)
    · rw [hended]
      exact h.allowed (hserved.polled.mp hquiet)
  after hlt hserved h := h.of_served (Nat.ne_of_lt hlt) hserved
  skip h := by
    refine ⟨h.waiting, .none ?_⟩
    rintro i rfl hmem
    cases h.ready_of_ended hmem
  transfer h := transfer_wp h.waiting h.allowed

/-- The position of one of `count` pairs from `base` on. -/
def Among (base count i : Nat) : Prop := base ≤ i ∧ i < base + count

theorem among_cons {base count i : Nat} :
    i = base ∨ Among (base + 1) count i ↔ Among base (count + 1) i := by
  unfold Among
  omega

theorem ne_of_among {base count i : Nat} (h : Among (base + 1) count i) : i ≠ base := by
  unfold Among at h
  omega

/-- Serving one pair after the other serves them all, each once. -/
theorem served_of_moves {base count : Nat} {log log' : Log}
    (h : Moves (fun i => Served (· = i)) base count log log') :
    Served (Among base count) log log' := by
  induction h with
  | nil base log =>
      refine .none fun i hi => ?_
      have hlt : i < base := hi.2
      exact absurd hi.1 (by omega)
  | cons first _ ih =>
      exact (first.trans ih fun i hi => ne_of_among hi).congr fun i => among_cons

theorem broke_of_moves {k count : Nat} {log log₁ log₂ : Log} (hk : k < count)
    (h : Moves (fun i => Served (· = i)) 0 k log log₁) (hbroke : Broke (· = k) log₁ log₂) :
    Broke (Among 0 count) log log₂ := by
  have hserved := served_of_moves h
  have hlast : ¬Among 0 k k := fun hamong => by
    have hlt := hamong.2
    omega
  refine ⟨hbroke.1.trans hserved.polled, fun hstops hnot => hbroke.2 ?_ ?_⟩
  · refine hserved.stops.mpr ⟨hstops, fun i hi => hnot i ⟨hi.1, ?_⟩⟩
    have hlt := hi.2
    omega
  · rintro i rfl
    rw [hserved.ended i hlast]
    exact hnot i ⟨Nat.zero_le i, by omega⟩

abbrev Idle (log log' : Log) : Prop := Served (fun _ => False) log log'

theorem idle_refl (log : Log) : Idle log log := .none fun _ hi => hi.elim

theorem idle_snoc {log : Log} {ev : Event linux} (hread : readBy ev.1 = none)
    (hended : endedBy ev = none) (hpoll : ¬Polled ev) : Idle log (log ++ [ev]) :=
  (idle_refl log).snoc_other ev hread hended hpoll

theorem checks : Checks (recording Persistent) Allowed Idle where
  refl := idle_refl
  trans h h' := (h.trans h' fun _ hi => hi.elim).congr fun _ => or_self_iff
  guard {log c} hsizes _ i hi := by
    cases c <;> first | exact hsizes.elim | cases hi
  get := by
    rintro log r _ ⟨rfl, -⟩
    exact idle_snoc rfl rfl id
  set := by
    rintro log pty ws r _ ⟨rfl, -⟩
    exact idle_snoc rfl rfl id

structure AtHead (count : Nat) (st : ShovelState) (log : Log) : Prop where
  waiting : ∀ i (hi : i < st.pairs.length), Waiting i st.pairs[i] log
  length_eq : st.pairs.length = count
  among : ∀ i ∈ ended log, i < count
  stops_iff : StopsAtEnd log ↔ NeverPolledAgain log

theorem AtHead.of_idle {count : Nat} {st : ShovelState} {log log' : Log} (h : AtHead count st log)
    (hidle : Idle log log') : AtHead count st log' where
  waiting i hi :=
    { h.waiting i hi with ended := fun hmem => (h.waiting i hi).ended ((hidle.ended i id).mp hmem) }
  length_eq := h.length_eq
  among := fun i hi => h.among i ((hidle.ended i id).mp hi)
  stops_iff := by
    rw [hidle.stops, hidle.polled, h.stops_iff]
    exact and_iff_left fun _ hi => hi.elim

/-- From a head, after a successful `poll` and the size check. -/
structure AfterPoll (pairs : List FilePair) (log log₁ : Log) : Prop where
  waiting : ∀ i (hi : i < pairs.length), Waiting i pairs[i] log₁
  mem : ∀ i, i ∈ ended log₁ ↔ i ∈ ended log
  stops : StopsAtEnd log₁ ↔ NeverPolledAgain log
  never : NeverPolledAgain log₁ ↔ NeverPolledAgain log ∧ ended log = []

theorem AtHead.afterPoll {count : Nat} {st : ShovelState} {log log₁ : Log}
    (h : AtHead count st log) {fds : List PollFd} {timeout : Option Timespec}
    {revents : { ready : List Bool // ready.length = fds.length }}
    (hidle : Idle (log ++ [⟨.poll fds timeout, .ok revents⟩]) log₁) :
    AfterPoll st.pairs log log₁ := by
  have hended : ended (log ++ [⟨.poll fds timeout, .ok revents⟩]) = ended log := by
    rw [ended_snoc]
    exact List.append_nil _
  have hmem : ∀ i, i ∈ ended log₁ ↔ i ∈ ended log := by
    intro i
    rw [hidle.ended i id, hended]
  refine ⟨fun i hi => ?_, hmem, ?_, ?_⟩
  · exact { h.waiting i hi with ended := fun hi' => (h.waiting i hi).ended ((hmem i).mp hi') }
  · rw [hidle.stops, and_iff_left fun _ hi => hi.elim, stopsAtEnd_snoc, ← h.stops_iff]
    exact and_iff_left fun i hi => by cases hi
  · rw [hidle.polled, neverPolledAgain_snoc]
    exact and_congr_right fun _ => ⟨fun hp => hp trivial, fun hp _ => hp⟩

/-- After a successful poll nothing may be read that had come to its end before. -/
theorem AfterPoll.due {count : Nat} {st : ShovelState} {log log₁ : Log}
    (h : AfterPoll st.pairs log log₁) (hhead : AtHead count st log) {timeout : Option Timespec}
    {revents : { ready : List Bool // ready.length = (st.pairs.map pollFd).length }}
    (hpersistent : Persistent log ⟨.poll (st.pairs.map pollFd) timeout, .ok revents⟩) :
    AllBefore Due 0 st.pairs revents.1 log₁ := by
  refine allBefore_of_get (revents.2.trans (List.length_map _)) fun k hk r hr => ?_
  rw [Nat.zero_add]
  refine ⟨h.waiting k hk, fun hmem => ?_, fun hquiet hmem => ?_⟩
  · obtain ⟨fd, hfd⟩ := (hhead.waiting k hk).fromFile
    have hstate := (hhead.waiting k hk).ended ((h.mem k).mp hmem)
    have hpolled : (st.pairs.map pollFd)[k]? = some ⟨.ofPair k fd, .pollIn⟩ := by
      rw [List.getElem?_map, List.getElem?_eq_getElem hk, Option.map_some, pollFd, hstate, hfd]
    exact Option.some.inj (hr.symm.trans (hpersistent k k fd hpolled ((h.mem k).mp hmem)))
  · rw [h.mem, (h.never.mp hquiet).2] at hmem
    cases hmem

/-- Where the round ends early, nothing more is read of a pair that had come to its
end if `poll` was not called since. -/
theorem AfterPoll.broke {pairs : List FilePair} {count : Nat} {log log₁ log₂ : Log}
    (h : AfterPoll pairs log log₁) (hbroke : Broke (Among 0 count) log₁ log₂) :
    NeverPolledAgain log₂ → StopsAtEnd log₂ := by
  intro hquiet
  obtain ⟨hpolled, hstops⟩ := hbroke
  obtain ⟨hbefore, hempty⟩ := h.never.mp (hpolled.mp hquiet)
  refine hstops (h.stops.mpr hbefore) fun i _ hi => ?_
  rw [h.mem, hempty] at hi
  cases hi

theorem AfterPoll.served {count : Nat} {st : ShovelState} {log log₁ log₂ : Log}
    (h : AfterPoll st.pairs log log₁) (hhead : AtHead count st log) {pairs : List FilePair}
    (hpairs : AllAfter Waiting 0 pairs log₂) (hcount : pairs.length = st.pairs.length)
    (hserved : Served (Among 0 st.pairs.length) log₁ log₂) (last : Option Winsize) :
    AtHead count ⟨pairs, last⟩ log₂ := by
  refine ⟨fun i hi => ?_, hcount.trans hhead.length_eq, fun i hi => ?_, ?_⟩
  · have hpair := hpairs.get i hi
    rwa [Nat.zero_add] at hpair
  · by_cases hamong : Among 0 st.pairs.length i
    · have hlt := hamong.2
      rwa [Nat.zero_add, hhead.length_eq] at hlt
    · exact hhead.among i ((h.mem i).mp ((hserved.ended i hamong).mp hi))
  · rw [hserved.stops, hserved.polled, h.stops, h.never]
    refine and_congr_right fun _ => ⟨fun hnot => ?_, fun hempty i _ hi => ?_⟩
    · refine List.eq_nil_iff_forall_not_mem.mpr fun i hi => hnot i ?_ ((h.mem i).mpr hi)
      have hlt := hhead.among i hi
      rw [← hhead.length_eq] at hlt
      exact ⟨Nat.zero_le i, by omega⟩
    · rw [h.mem, hempty] at hi
      cases hi

/-- What a run of shovel has come to. -/
def Ends (_ : Outcome Halt ε Unit) (log : Log) : Prop := NeverPolledAgain log → StopsAtEnd log

theorem round_wp {resize : Option Fd} {count : Nat} {st : ShovelState} {log : Log}
    (h : AtHead count st log) :
    (shovelRound (ε := ε) resize st).wp (recording Persistent) Allowed
      (RoundEnds (AtHead count) Ends) log := by
  refine shovelRound_wp (fun _ i hi => by cases hi) ?_ ?_
  · rintro e _ ⟨rfl, -⟩
    have hidle : Idle log (log ++ [⟨.poll (st.pairs.map pollFd)
        (resize.map fun _ => pollTimeout), .error e⟩]) := idle_snoc rfl rfl id
    have hnext := h.of_idle hidle
    split
    · exact hnext
    · exact hnext.stops_iff.mpr
  · rintro revents log₁ ⟨rfl, hpersistent⟩
    refine Program.wp_post (checks.checkWinsize_wp resize st.lastWinsize _) fun o log₂ ho => ?_
    obtain ⟨⟨last, rfl⟩, hidle⟩ := ho
    have hpoll := h.afterPoll hidle
    refine ⟨last, rfl, Program.wp_post (serving.serve_wp (hpoll.due h hpersistent))
      fun o log₃ ho => ?_⟩
    rcases o with ⟨_ | _, pairs⟩ | e | e
    · obtain ⟨k, log', hk, hmoves, hbroke, -⟩ := ho
      rw [Nat.zero_add] at hbroke
      exact hpoll.broke (broke_of_moves hk hmoves hbroke)
    · obtain ⟨hpairs, hcount, hmoves⟩ := ho
      exact hpoll.served h hpairs hcount (served_of_moves hmoves) last
    · exact ho.elim
    · exact ho.elim

theorem atHead_newPairs (files : List (Fd × Fd)) (last : Option Winsize) :
    AtHead files.length ⟨newPairs 0 files, last⟩ [] where
  waiting i hi := by
    obtain ⟨fromFd, toFd, hpair⟩ := newPairs_get hi
    simp only [hpair, Nat.zero_add]
    exact ⟨FilePair.coherent_new _ _, ⟨fromFd, rfl⟩, ⟨toFd, rfl⟩, fun _ => rfl⟩
  length_eq := newPairs_length 0 files
  among i hi := by cases hi
  stops_iff := iff_of_true (throughout_nil _) (throughout_nil _)

theorem start_wp (files : List (Fd × Fd)) (resize : Option Fd) :
    (initialWinsize (ε := ε) resize).wp (recording Persistent) Allowed
      (fun o log => ∃ last, o = .value last ∧
        AtHead files.length ⟨newPairs 0 files, last⟩ log) [] := by
  refine Program.wp_post (checks.initialWinsize_wp resize []) fun o log ho => ?_
  obtain ⟨⟨last, rfl⟩, hidle⟩ := ho
  exact ⟨last, rfl, (atHead_newPairs files last).of_idle hidle⟩

theorem shovel_wp (files : List (Fd × Fd)) (resize : Option Fd) :
    (shovel (ε := ε) (newPairs 0 files) resize).wp (recording Persistent) Allowed Ends [] :=
  shovel_rule (start_wp files resize) fun _ _ => round_wp

theorem ended_length_le {count : Nat} {log : Log} (hamong : ∀ i ∈ ended log, i < count)
    (hstops : StopsAtEnd log) : (ended log).length ≤ count := by
  have hnodup : (ended log).Nodup := by
    clear hamong
    induction log using List.reverseRecOn with
    | nil => exact List.nodup_nil
    | append_singleton log ev ih =>
        obtain ⟨hlog, hlast⟩ := stopsAtEnd_snoc.mp hstops
        rw [ended_snoc]
        cases hev : endedBy ev with
        | none => simpa using ih hlog
        | some i =>
            rw [Option.toList_some, ← List.concat_eq_append]
            exact (ih hlog).concat (hlast i (readBy_of_endedBy hev))
  have hsubset : ended log ⊆ List.range count := fun i hi => List.mem_range.mpr (hamong i hi)
  have hle := (List.subperm_of_subset hnodup hsubset).length_le
  rwa [List.length_range] at hle

/-- At the heads of the rounds, no file has been read after its end if and only if
`poll` has not succeeded after one; and then each was at most once at its end. Up to
such a poll no call reads a file that has ended, and neither does a whole run. -/
theorem shovel_stopsAtEnd_iff (files : List (Fd × Fd)) (resize : Option Fd) :
    (∀ (st : ShovelState) (log : Log),
      LoopHead ε (recording Persistent) (newPairs 0 files) resize [] st log →
      (StopsAtEnd log ↔ NeverPolledAgain log) ∧
        (StopsAtEnd log → (ended log).length ≤ files.length)) ∧
    (∀ (c : Syscall) (log : Log),
      (shovel (ε := ε) (newPairs 0 files) resize).Issues (recording Persistent) [] c log →
      Allowed log c) ∧
    ∀ (o : Outcome Halt ε Unit) (log : Log),
      (shovel (newPairs 0 files) resize).Runs (recording Persistent) [] o log →
      NeverPolledAgain log → StopsAtEnd log := by
  refine ⟨fun st log hloop => ?_, fun c log issue => issue.of_wp (shovel_wp files resize),
    fun o log run => run.of_wp (shovel_wp files resize)⟩
  have hhead := hloop.invariant (start_wp files resize) fun _ _ => round_wp
  exact ⟨hhead.stops_iff, fun hstops => ended_length_le hhead.among hstops⟩

def hungUp : (c : Syscall) → c.Answer
  | .poll fds _ => .ok ⟨List.replicate fds.length true, List.length_replicate⟩
  | .read _ _ => .ok ⟨[], Nat.zero_le _⟩
  | .write _ _ => .ok 0
  | c => c.refused

theorem persistent_hungUp (log : Log) (c : Syscall) : Persistent log ⟨c, hungUp c⟩ := by
  cases c with
  | read file size =>
      cases file with
      | ofPair i fd => exact fun _ => rfl
      | _ => trivial
  | write file bytes => exact fun _ => ⟨0, rfl⟩
  | poll fds timeout =>
      intro k i fd hk _
      have hlt : k < fds.length := (List.getElem?_eq_some_iff.mp hk).1
      have hready : (List.replicate fds.length true)[k]? = some true := by
        rw [List.getElem?_replicate, if_pos hlt]
      exact hready
  | _ => trivial

def hungUpState : ShovelState := ⟨newPairs 0 [(stdin, 3)], none⟩

theorem shovelRound_hungUp (log : Log) :
    ∃ log', (shovelRound (ε := Empty) none hungUpState).Runs (recording Persistent) log
        (.value (.inl hungUpState)) log' ∧
      ended log' = ended log ++ [0] ∧ SameTraffic 0 log log' := by
  have hrun : (shovelRound (ε := Empty) none hungUpState).play
      (fun log c => (hungUp c, log ++ [⟨c, hungUp c⟩])) 3 log =
        some (.value (.inl hungUpState), _) := rfl
  refine ⟨_, .of_play (fun log c => ⟨rfl, persistent_hungUp log c⟩) hrun, ?_, ?_, ?_⟩
  · rw [ended_snoc, ended_snoc, ended_snoc, List.append_assoc, List.append_assoc]
    rfl
  · rw [returned_append, returned_append, returned_append, List.append_assoc, List.append_assoc]
    exact List.append_nil _
  · rw [accepted_append, accepted_append, accepted_append, List.append_assoc, List.append_assoc]
    exact List.append_nil _

/-- shovel between stdin and a PTY, without a terminal. -/
abbrev HungUpHead (st : ShovelState) (log : Log) : Prop :=
  LoopHead Empty (recording Persistent) (newPairs 0 [(stdin, 3)]) none [] st log

theorem hungUpHead_of_rounds {st : ShovelState} {log : Log}
    (h : Program.Rounds (recording Persistent) (shovelRound (ε := Empty) none) hungUpState [] st
      log) : HungUpHead st log :=
  ⟨none, [], .stop _ _, h⟩

theorem shovel_stopsAtEnd_hungUp :
    ∃ st log, HungUpHead st log ∧ ended log = [0] ∧
      (StopsAtEnd log ↔ NeverPolledAgain log) := by
  obtain ⟨log, hrun, hended, -⟩ := shovelRound_hungUp []
  have hhead := hungUpHead_of_rounds (.round (.refl hungUpState []) hrun)
  exact ⟨_, log, hhead, hended,
    ((shovel_stopsAtEnd_iff (ε := Empty) [(stdin, 3)] none).1 _ log hhead).1⟩

/-- shovel reads a terminal that was hung up again and again, without end. -/
theorem shovel_spins :
    (∃ st log, HungUpHead st log ∧ ¬StopsAtEnd log) ∧
      ∀ n, ∃ st log, HungUpHead st log ∧ (ended log).length = n ∧ SameTraffic 0 [] log := by
  have hspin : ∀ n, ∃ log, Program.Rounds (recording Persistent) (shovelRound (ε := Empty) none)
      hungUpState [] hungUpState log ∧ ended log = List.replicate n 0 ∧ SameTraffic 0 [] log := by
    intro n
    induction n with
    | zero => exact ⟨[], .refl _ _, rfl, rfl, rfl⟩
    | succ n ih =>
        obtain ⟨log, hrounds, hended, hsame⟩ := ih
        obtain ⟨log', hrun, hended', hsame'⟩ := shovelRound_hungUp log
        refine ⟨log', .round hrounds hrun, ?_, hsame.trans hsame'⟩
        rw [hended', hended, List.replicate_succ']
  constructor
  · obtain ⟨log, hrounds, hended, -⟩ := hspin 2
    refine ⟨_, log, hungUpHead_of_rounds hrounds, fun hstops => ?_⟩
    have hamong : ∀ i ∈ ended log, i < 1 := by
      rw [hended]
      decide
    have hle := ended_length_le hamong hstops
    rw [hended] at hle
    exact absurd hle (by decide)
  · intro n
    obtain ⟨log, hrounds, hended, hsame⟩ := hspin n
    exact ⟨_, log, hungUpHead_of_rounds hrounds, by rw [hended, List.length_replicate], hsame⟩

end Cntr.EndedPairs
