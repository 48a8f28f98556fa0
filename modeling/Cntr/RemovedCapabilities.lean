import Cntr.AttemptedRemovals
import Cntr.BoundingSet
import Cntr.CallTreeTermination

namespace Cntr.RemovedCapabilities

open Cntr.CallTree
open Cntr.AttemptedRemovals
open Cntr.SystemCalls
open Cntr.BoundingSet

section Shifts

variable {ε : Type}

/-- `1u64 << cap`; a shift by 64 or more ends as `overflow` says. -/
def shifted (overflow : Nat → Sys ε (BitVec 64)) (cap : Nat) : Sys ε (BitVec 64) :=
  if cap < 64 then return bit cap else overflow cap

def dropCapShifted (overflow : Nat → Sys ε (BitVec 64)) (mask : BitVec 64) (cap : Nat) :
    Sys ε Unit := do
  let tested ← shifted overflow cap
  if mask &&& tested = 0 then
    let dropped ← shifted overflow cap
    let _ ← sys (.dropBounding dropped)
    return ()
  else return ()

/-- `drop`, with every shift that it makes as a step of its own. -/
def dropShifted (overflow : Nat → Sys ε (BitVec 64)) (inheritableCapabilities : BitVec 64)
    (lastCap : Nat) : Sys ε Unit :=
  if lastCap ≤ 63 then do
    let sysChroot ← shifted overflow capSysChroot
    let sysPtrace ← shifted overflow capSysPtrace
    .forEach (dropCapShifted overflow (inheritableCapabilities ||| sysChroot ||| sysPtrace))
      (List.range (lastCap + 1))
  else .halt .panicked

theorem shifted_of_lt (overflow : Nat → Sys ε (BitVec 64)) {cap : Nat} (hcap : cap < 64) :
    shifted overflow cap = .done (bit cap) := if_pos hcap

theorem dropCapShifted_eq (overflow : Nat → Sys ε (BitVec 64)) (mask : BitVec 64) {cap : Nat}
    (hcap : cap < 64) : dropCapShifted overflow mask cap = dropCap mask cap := by
  simp only [dropCapShifted, shifted_of_lt overflow hcap, Program.bind_eq, Program.done_bind]
  rfl

/-- No shift overflows: what an overflow would do makes no difference. -/
theorem dropShifted_eq (overflow : Nat → Sys ε (BitVec 64))
    (inheritableCapabilities : BitVec 64) (lastCap : Nat) :
    dropShifted overflow inheritableCapabilities lastCap =
      drop inheritableCapabilities lastCap := by
  have hchroot : shifted overflow capSysChroot = .done (bit capSysChroot) :=
    shifted_of_lt overflow (by decide)
  have hptrace : shifted overflow capSysPtrace = .done (bit capSysPtrace) :=
    shifted_of_lt overflow (by decide)
  by_cases hlast : lastCap ≤ 63
  · rw [dropShifted, drop, if_pos hlast, if_pos hlast]
    simp only [hchroot, hptrace, Program.bind_eq, Program.done_bind]
    refine Program.forEach_congr fun cap hmem => ?_
    have hcap : cap < lastCap + 1 := List.mem_range.mp hmem
    exact dropCapShifted_eq overflow _ (by omega)
  · rw [dropShifted, drop, if_neg hlast, if_neg hlast]

end Shifts

section Termination

variable {ε σ : Type} {K : Kernel linux σ}

theorem terminates_dropCap (mask : BitVec 64) (cap : Nat) (s : σ) :
    (dropCap (ε := ε) mask cap).Terminates K s := by
  by_cases hmask : mask &&& bit cap = 0
  · rw [dropCap, if_pos hmask]
    exact fun _ _ _ => trivial
  · rw [dropCap, if_neg hmask]
    trivial

theorem terminates_drop (inheritableCapabilities : BitVec 64) (lastCap : Nat) (s : σ) :
    (drop (ε := ε) inheritableCapabilities lastCap).Terminates K s := by
  by_cases hlast : lastCap ≤ 63
  · rw [drop, if_pos hlast]
    exact .forEach (terminates_dropCap _) _ s
  · rw [drop, if_neg hlast]
    trivial

end Termination

section Removals

/-- The call that takes a capability out of the bounding set. -/
def removal (cap : Nat) : Syscall := .dropBounding (bit cap)

/-- The capabilities that the target lacks and that `exec` does not need. -/
def Unwanted (mask : BitVec 64) (lastCap cap : Nat) : Prop :=
  cap ≤ lastCap ∧ cap ∉ members mask ∧ cap ≠ capSysChroot ∧ cap ≠ capSysPtrace

instance (mask : BitVec 64) (lastCap cap : Nat) : Decidable (Unwanted mask lastCap cap) :=
  inferInstanceAs (Decidable (_ ∧ ¬(_ = _) ∧ _ ∧ _))

def removals (mask : BitVec 64) (lastCap : Nat) : List Nat :=
  (List.range (lastCap + 1)).filter fun cap => Unwanted mask lastCap cap

/-- The bounding set after a call. A removal that fails changes nothing. -/
def after (bounding : BitVec 64) : Event linux → BitVec 64
  | ⟨.dropBounding bits, .ok _⟩ => bounding &&& ~~~bits
  | _ => bounding

def boundingAfter (start : BitVec 64) (log : Log) : BitVec 64 := log.foldl after start

/-- The capabilities whose own removal failed. -/
def failed (log : Log) : Set Nat := {cap | ∃ e, ⟨removal cap, .error e⟩ ∈ log}

/-- What is left of the bounding set after a run of `drop`: nothing but the
unwanted capabilities is missing, and of those only the ones whose own removal
did not fail. -/
structure RemovesExactly (mask : BitVec 64) (lastCap : Nat) (log : Log) : Prop where
  calls : log.map Sigma.fst = (removals mask lastCap).map removal
  bounding : ∀ start, members (boundingAfter start log) =
    members start \ {cap | Unwanted mask lastCap cap ∧ cap ∉ failed log}
  spares : ∀ start log', log' <+: log →
    members start ∩ members mask ⊆ members (boundingAfter start log')

/-- A removal together with its answer. -/
def answered (answer : Nat × Except Errno Unit) : Event linux := ⟨removal answer.1, answer.2⟩

def attempt (answer : Nat × Except Errno Unit) : Nat × Bool := (answer.1, answer.2.isOk)

variable {mask : BitVec 64} {lastCap : Nat}

theorem mem_removals {cap : Nat} : cap ∈ removals mask lastCap ↔ Unwanted mask lastCap cap := by
  rw [removals, List.mem_filter, List.mem_range, decide_eq_true_eq]
  refine ⟨fun h => h.2, fun h => ⟨?_, h⟩⟩
  have := h.1
  omega

theorem nodup_removals : (removals mask lastCap).Nodup := List.nodup_range.filter _

theorem removals_eq (hlast : lastCap ≤ 63) : removals mask lastCap =
    (List.range (lastCap + 1)).filter fun cap => inheritable mask &&& bit cap = 0 := by
  refine List.filter_congr fun cap hmem => decide_eq_decide.mpr ?_
  have hcap := List.mem_range.mp hmem
  rw [and_bit_eq_zero_iff _ _ (by omega), Bool.eq_false_iff, Ne, getLsbD_inheritable]
  simp only [Unwanted, mem_members, not_or]
  exact ⟨fun h => h.2, fun h => ⟨by omega, h⟩⟩

theorem eq_of_bit_eq {cap c : Nat} (hcap : cap < 64) (h : bit c = bit cap) : c = cap := by
  have hset : (1#64 <<< c).getLsbD cap = true := by
    change (bit c).getLsbD cap = true
    rw [h, getLsbD_bit cap cap hcap, decide_eq_true_eq]
  simp only [BitVec.getLsbD_shiftLeft, BitVec.getLsbD_one, Bool.and_eq_true,
    Bool.not_eq_true', decide_eq_true_eq, decide_eq_false_iff_not] at hset
  omega

section Answers

variable {answers : List (Nat × Except Errno Unit)}

theorem lt_of_answers (hlast : lastCap ≤ 63)
    (hall : answers.map Prod.fst = removals mask lastCap) : ∀ answer ∈ answers, answer.1 < 64 := by
  intro answer hmem
  have hcap : answer.1 ∈ removals mask lastCap := hall ▸ List.mem_map_of_mem hmem
  have := (mem_removals.mp hcap).1
  omega

theorem mem_failed (hcaps : ∀ answer ∈ answers, answer.1 < 64) {cap : Nat} :
    cap ∈ failed (answers.map answered) ↔ ∃ e, (cap, .error e) ∈ answers := by
  constructor
  · rintro ⟨e, hmem⟩
    obtain ⟨⟨c, r⟩, hanswer, heq⟩ := List.mem_map.mp hmem
    obtain ⟨hremoval, hr⟩ := Sigma.mk.inj heq
    obtain rfl : cap = c :=
      eq_of_bit_eq (hcaps _ hanswer) (Syscall.dropBounding.inj hremoval).symm
    obtain rfl := eq_of_heq hr
    exact ⟨e, hanswer⟩
  · rintro ⟨e, hanswer⟩
    exact ⟨e, List.mem_map.mpr ⟨_, hanswer, rfl⟩⟩

theorem attempted_eq : (answers.map attempt).map Prod.fst = answers.map Prod.fst := by
  rw [List.map_map]
  rfl

theorem mem_attempts_false {cap : Nat} :
    (cap, false) ∈ answers.map attempt ↔ ∃ e, (cap, .error e) ∈ answers := by
  constructor
  · intro hmem
    obtain ⟨⟨c, r⟩, hanswer, heq⟩ := List.mem_map.mp hmem
    cases r with
    | error e =>
        obtain rfl : c = cap := congrArg Prod.fst heq
        exact ⟨e, hanswer⟩
    | ok _ => cases heq
  · rintro ⟨e, hanswer⟩
    exact List.mem_map.mpr ⟨_, hanswer, rfl⟩

theorem members_boundingAfter (hcaps : ∀ answer ∈ answers, answer.1 < 64) (start : BitVec 64) :
    members (boundingAfter start (answers.map answered)) =
      remaining (members start) (answers.map attempt) := by
  induction answers generalizing start with
  | nil => rfl
  | cons answer answers ih =>
      obtain ⟨cap, r⟩ := answer
      obtain ⟨hcap, hrest⟩ := List.forall_mem_cons.mp hcaps
      cases r with
      | error e => exact ih hrest start
      | ok _ =>
          have hbit : members (bit cap) = {cap} := members_one_shiftLeft hcap
          have hclear : members (start &&& ~~~bit cap) = members start \ {cap} := by
            rw [members_clear, hbit]
          rw [List.map_cons, List.map_cons]
          change members (boundingAfter (start &&& ~~~bit cap) _) =
            remaining (members start \ {cap}) _
          rw [ih hrest, hclear]

theorem bounding_of_answers (hlast : lastCap ≤ 63)
    (hall : answers.map Prod.fst = removals mask lastCap) (start : BitVec 64) :
    members (boundingAfter start (answers.map answered)) = members start \
      {cap | Unwanted mask lastCap cap ∧ cap ∉ failed (answers.map answered)} := by
  have hcaps := lt_of_answers hlast hall
  have hattempted : (answers.map attempt).map Prod.fst = removals mask lastCap := by
    rw [attempted_eq, hall]
  rw [members_boundingAfter hcaps, remaining_eq (hattempted ▸ nodup_removals), hattempted]
  congr 1
  ext cap
  refine and_congr mem_removals (not_congr ?_)
  rw [mem_attempts_false, mem_failed hcaps]

theorem inter_subset_boundingAfter (hlast : lastCap ≤ 63)
    (hall : answers.map Prod.fst = removals mask lastCap)
    {made : List (Nat × Except Errno Unit)} (hmade : made <+: answers) (start : BitVec 64) :
    members start ∩ members mask ⊆ members (boundingAfter start (made.map answered)) := by
  have hcaps := lt_of_answers hlast hall
  rw [members_boundingAfter fun answer hmem => hcaps answer (hmade.subset hmem)]
  refine inter_subset_remaining (fun cap hmem => ?_) _
  rw [attempted_eq] at hmem
  have hcap : cap ∈ removals mask lastCap := hall ▸ (hmade.map Prod.fst).subset hmem
  exact (mem_removals.mp hcap).2.1

end Answers

section Runs

variable {ε : Type}

/-- What a run is to be like from here on: the answers so far are those to the
first removals, and those to the remaining capabilities are still to come. -/
def Attempting (all rest : List Nat) (log : Log) : Prop :=
  ∃ answers : List (Nat × Except Errno Unit),
    answers.map Prod.fst ++ rest = all ∧ log = answers.map answered

theorem dropCap_wp {kept : BitVec 64} {all rest : List Nat} {log : Log} (cap : Nat)
    (h : Attempting all ((cap :: rest).filter fun cap => kept &&& bit cap = 0) log) :
    (dropCap (ε := ε) kept cap).wp (tracing linux) (fun _ _ => True)
      (fun o log' => o = .value () ∧
        Attempting all (rest.filter fun cap => kept &&& bit cap = 0) log') log := by
  by_cases hclear : kept &&& bit cap = 0
  · rw [List.filter_cons_of_pos (by simpa using hclear)] at h
    obtain ⟨answers, hall, rfl⟩ := h
    rw [dropCap, if_pos hclear, Program.bind_eq, Program.wp_call_tracing]
    refine ⟨trivial, fun r => ⟨rfl, answers ++ [(cap, r)], ?_, ?_⟩⟩
    · rw [List.map_append, List.append_assoc]
      exact hall
    · rw [List.map_append]
      rfl
  · rw [List.filter_cons_of_neg (by simpa using hclear)] at h
    rw [dropCap, if_neg hclear]
    exact ⟨rfl, h⟩

/-- Whatever is answered, each removal is attempted once and in order. -/
theorem drop_wp (hlast : lastCap ≤ 63) :
    (drop (ε := ε) mask lastCap).wp (tracing linux) (fun _ _ => True)
      (fun o log => o = .value () ∧ Attempting (removals mask lastCap) [] log) [] := by
  rw [drop, if_pos hlast]
  refine Program.wp_forEach (fun rest => Attempting (removals mask lastCap)
    (rest.filter fun cap => inheritable mask &&& bit cap = 0)) ?_ ?_ ?_
  · intro cap rest log h
    refine Program.wp_post (dropCap_wp cap h) ?_
    rintro o log' ⟨rfl, h'⟩
    exact h'
  · exact fun log h => ⟨rfl, h⟩
  · exact ⟨[], (removals_eq hlast).symm, rfl⟩

theorem runs_forEach (reply : Nat → Except Errno Unit) (kept : BitVec 64) (caps : List Nat)
    (log : Log) : (Program.forEach (dropCap (ε := ε) kept) caps).Runs (tracing linux) log
      (.value ()) (log ++ ((caps.filter fun cap => kept &&& bit cap = 0).map
        fun cap => (cap, reply cap)).map answered) := by
  induction caps generalizing log with
  | nil =>
      rw [List.filter_nil, List.map_nil, List.map_nil, List.append_nil]
      exact .stop _ _
  | cons cap caps ih =>
      by_cases hclear : kept &&& bit cap = 0
      · have hfirst : (dropCap (ε := ε) kept cap).Runs (tracing linux) log (.value ())
            (log ++ [answered (cap, reply cap)]) := by
          have answer : tracing linux log (removal cap) (reply cap)
            (log ++ [answered (cap, reply cap)]) := rfl
          rw [dropCap, if_pos hclear]
          exact .ask answer (.stop _ _)
        have hrest := ih (log ++ [answered (cap, reply cap)])
        rw [List.append_assoc] at hrest
        rw [List.filter_cons_of_pos (by simpa using hclear)]
        exact hfirst.bind hrest
      · have hfirst : (dropCap (ε := ε) kept cap).Runs (tracing linux) log (.value ()) log := by
          rw [dropCap, if_neg hclear]
          exact .stop _ _
        rw [List.filter_cons_of_neg (by simpa using hclear)]
        exact hfirst.bind (ih log)

theorem runs_drop (reply : Nat → Except Errno Unit) (hlast : lastCap ≤ 63) :
    (drop (ε := ε) mask lastCap).Runs (tracing linux) [] (.value ())
      (((removals mask lastCap).map fun cap => (cap, reply cap)).map answered) := by
  rw [drop, if_pos hlast, removals_eq hlast]
  exact runs_forEach reply _ _ []

end Runs

theorem Attempting.removesExactly (hlast : lastCap ≤ 63) {log : Log}
    (h : Attempting (removals mask lastCap) [] log) : RemovesExactly mask lastCap log := by
  obtain ⟨answers, hall, rfl⟩ := h
  rw [List.append_nil] at hall
  constructor
  · rw [← hall, List.map_map, List.map_map]
    rfl
  · exact bounding_of_answers hlast hall
  · intro start log' hlog
    obtain ⟨made, hmade, rfl⟩ := List.prefix_map_iff.mp hlog
    exact inter_subset_boundingAfter hlast hall hmade start

/-- Any set of removals may be the ones that fail. -/
theorem exists_runs_failed {ε : Type} (hlast : lastCap ≤ 63) (fails : Set Nat) :
    ∃ log, (drop (ε := ε) mask lastCap).Runs (tracing linux) [] (.value ()) log ∧
      ∀ cap, cap ∈ failed log ↔ cap ∈ fails ∧ Unwanted mask lastCap cap := by
  classical
  let reply : Nat → Except Errno Unit := fun cap =>
    if cap ∈ fails then .error .perm else .ok ()
  let answers := (removals mask lastCap).map fun cap => (cap, reply cap)
  have hall : answers.map Prod.fst = removals mask lastCap := by
    rw [List.map_map]
    exact List.map_id _
  refine ⟨answers.map answered, runs_drop reply hlast, fun cap => ?_⟩
  rw [mem_failed (lt_of_answers hlast hall), ← mem_removals]
  constructor
  · rintro ⟨e, hmem⟩
    obtain ⟨c, hc, heq⟩ := List.mem_map.mp hmem
    obtain rfl : c = cap := congrArg Prod.fst heq
    refine ⟨?_, hc⟩
    by_contra hnot
    have hreply : reply c = .ok () := if_neg hnot
    have : reply c = .error e := congrArg Prod.snd heq
    rw [hreply] at this
    cases this
  · rintro ⟨hfails, hcap⟩
    have hreply : reply cap = .error .perm := if_pos hfails
    exact ⟨.perm, List.mem_map.mpr ⟨cap, hcap, by rw [hreply]⟩⟩

theorem drop_removesExactly {ε : Type} (mask : BitVec 64) {lastCap : Nat}
    (hlast : lastCap ≤ 63) :
    (∀ overflow, dropShifted (ε := ε) overflow mask lastCap = drop mask lastCap) ∧
      (∀ (σ : Type) (K : Kernel linux σ) (s : σ),
        (drop (ε := ε) mask lastCap).Terminates K s) ∧
      (∀ o log, (drop (ε := ε) mask lastCap).Runs (tracing linux) [] o log →
        o = .value () ∧ RemovesExactly mask lastCap log) ∧
      ∀ fails : Set Nat, ∃ log,
        (drop (ε := ε) mask lastCap).Runs (tracing linux) [] (.value ()) log ∧
          ∀ cap, cap ∈ failed log ↔ cap ∈ fails ∧ Unwanted mask lastCap cap := by
  refine ⟨fun overflow => dropShifted_eq overflow mask lastCap,
    fun σ K s => terminates_drop mask lastCap s, fun o log hrun => ?_,
    exists_runs_failed hlast⟩
  obtain ⟨ho, hattempting⟩ := hrun.of_wp (drop_wp hlast)
  exact ⟨ho, hattempting.removesExactly hlast⟩

/-- Up to the last bit of the word, with a target that holds `CAP_SYS_ADMIN`. -/
theorem drop_removesExactly_last : ∃ log,
    (drop (ε := Empty) (bit 21) 63).Runs (tracing linux) [] (.value ()) log ∧
      members (boundingAfter (BitVec.allOnes 64) log) = {18, 19, 21, 63} := by
  obtain ⟨-, -, hexact, hfails⟩ := drop_removesExactly (ε := Empty) (bit 21)
    (by decide : 63 ≤ 63)
  obtain ⟨log, hrun, hfailed⟩ := hfails {63}
  refine ⟨log, hrun, ?_⟩
  obtain ⟨-, hremoves⟩ := hexact _ log hrun
  rw [hremoves.bounding]
  ext cap
  simp only [Set.mem_sdiff, Set.mem_ofPred_eq, Set.mem_insert_iff, Set.mem_singleton_iff,
    hfailed, mem_members, BitVec.getLsbD_allOnes, decide_eq_true_eq, Unwanted,
    getLsbD_bit 21 cap (by decide), capSysChroot, capSysPtrace]
  omega

end Removals

end Cntr.RemovedCapabilities
