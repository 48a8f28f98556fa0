import Cntr.CallsMade
import Mathlib.Data.List.Chain

/-!
The size of the PTY against the sizes of the terminal that shovel has seen.
-/

namespace Cntr.WindowSizes

open Cntr.ByteText
open Cntr.CallTree
open Cntr.SystemCalls
open Cntr.CallsMade
open Cntr.ShovelLoop

/-- How often an element is not related to the one before it. -/
def changes {α : Type} (R : α → α → Prop) [DecidableRel R] : List α → Nat
  | a :: b :: xs => (if R a b then 0 else 1) + changes R (b :: xs)
  | _ => 0

section Changes

variable {α : Type} {R R' : α → α → Prop} [DecidableRel R] [DecidableRel R']

theorem changes_snoc (xs : List α) (a b : α) :
    changes R (xs ++ [a, b]) = changes R (xs ++ [a]) + if R a b then 0 else 1 := by
  induction xs with
  | nil => exact Nat.add_comm _ _
  | cons x xs ih =>
      cases xs with
      | nil => exact (congrArg _ ih).trans (Nat.add_assoc _ _ _).symm
      | cons y xs => exact (congrArg _ ih).trans (Nat.add_assoc _ _ _).symm

theorem changes_le (hR : ∀ a b, R a b → R' a b) (xs : List α) :
    changes R' xs ≤ changes R xs := by
  induction xs with
  | nil => exact Nat.le_refl 0
  | cons a xs ih =>
      cases xs with
      | nil => exact Nat.le_refl 0
      | cons b xs =>
          apply Nat.add_le_add _ ih
          by_cases h : R a b
          · rw [if_pos h, if_pos (hR a b h)]
          · rw [if_neg h]
            split <;> omega

/-- A finer relation changes more often, unless it agrees with the coarser one
from each element to the next. -/
theorem changes_eq_iff (hR : ∀ a b, R a b → R' a b) (xs : List α) :
    changes R xs = changes R' xs ↔ xs.IsChain fun a b => R' a b → R a b := by
  induction xs with
  | nil => exact iff_of_true rfl .nil
  | cons a xs ih =>
      cases xs with
      | nil => exact iff_of_true rfl (.singleton a)
      | cons b xs =>
          have hle := changes_le hR (b :: xs)
          rw [List.isChain_cons_cons, ← ih, changes, changes]
          by_cases h : R a b
          · rw [if_pos h, if_pos (hR a b h)]
            constructor
            · intro heq
              exact ⟨fun _ => h, by omega⟩
            · rintro ⟨-, heq⟩
              rw [heq]
          · rw [if_neg h]
            by_cases h' : R' a b
            · rw [if_pos h']
              constructor
              · intro heq
                omega
              · rintro ⟨himp, -⟩
                exact absurd (himp h') h
            · rw [if_neg h']
              constructor
              · intro heq
                exact ⟨fun hb => absurd hb h', by omega⟩
              · rintro ⟨-, heq⟩
                rw [heq]

end Changes

/-- What the size check looks at. -/
def SameGrid (a b : Winsize) : Prop := a.wsRow = b.wsRow ∧ a.wsCol = b.wsCol

instance : DecidableRel SameGrid := fun _ _ => inferInstanceAs (Decidable (_ ∧ _))

def observedBy : Event linux → Option Winsize
  | ⟨.tcgetwinsize _, .ok ws⟩ => some ws
  | _ => none

def setBy (pty : Fd) : Event linux → Option Winsize
  | ⟨.tcsetwinsize fd ws, .ok _⟩ => if fd = pty then some ws else none
  | _ => none

/-- The sizes of the terminal that were observed, one for each size check. -/
def observed (log : Log) : List Winsize := log.filterMap observedBy

/-- The sizes the PTY was given; the last one is its size. -/
def sizesSet (pty : Fd) (log : Log) : List Winsize := log.filterMap (setBy pty)

/-- The PTY has the size that was observed last, and was given a size once at first
and once for each observed size that is not the one observed before. -/
structure Propagated (pty : Fd) (log : Log) : Prop where
  current : (sizesSet pty log).getLast? = (observed log).getLast?
  count : (sizesSet pty log).length = 1 + changes Eq (observed log)

/-- Sizes with the same rows and columns that follow on each other are the same. -/
def GridsTell (log : Log) : Prop := (observed log).IsChain fun a b => SameGrid a b → a = b

/-- `tcgetwinsize` and `tcsetwinsize` do not fail. -/
def Succeeding (_ : Log) : Event linux → Prop
  | ⟨.tcgetwinsize _, .error _⟩ => False
  | ⟨.tcsetwinsize _ _, .error _⟩ => False
  | _ => True

theorem observed_snoc (log : Log) (ev : Event linux) :
    observed (log ++ [ev]) = observed log ++ (observedBy ev).toList :=
  filterMap_concat observedBy log ev

theorem sizesSet_snoc (pty : Fd) (log : Log) (ev : Event linux) :
    sizesSet pty (log ++ [ev]) = sizesSet pty log ++ (setBy pty ev).toList :=
  filterMap_concat (setBy pty) log ev

/-- Between two size checks: the cached size is that of the PTY and has the rows
and columns of the terminal. -/
structure Tracked (pty : Fd) (cached : Winsize) (log : Log) : Prop where
  current : (sizesSet pty log).getLast? = some cached
  count : (sizesSet pty log).length = 1 + changes SameGrid (observed log)
  grid : ∃ earlier last, observed log = earlier ++ [last] ∧ SameGrid cached last ∧
    (GridsTell log → cached = last)

theorem Tracked.propagated_iff {pty : Fd} {cached : Winsize} {log : Log}
    (h : Tracked pty cached log) : Propagated pty log ↔ GridsTell log := by
  have hcount := changes_eq_iff (fun (a b : Winsize) (hab : a = b) =>
    show SameGrid a b from hab ▸ ⟨rfl, rfl⟩) (observed log)
  constructor
  · intro hpropagated
    apply hcount.mp
    have heq := hpropagated.count
    rw [h.count] at heq
    omega
  · intro htell
    obtain ⟨earlier, last, hobserved, -, hcached⟩ := h.grid
    constructor
    · rw [h.current, hcached htell, hobserved, List.getLast?_concat]
    · rw [h.count, hcount.mpr htell]

theorem Tracked.snoc_other {pty : Fd} {cached : Winsize} {log : Log} (h : Tracked pty cached log)
    (ev : Event linux) (hobserved : observedBy ev = none) (hset : setBy pty ev = none) :
    Tracked pty cached (log ++ [ev]) := by
  have hobs : observed (log ++ [ev]) = observed log := by
    rw [observed_snoc, hobserved, Option.toList_none, List.append_nil]
  have hsets : sizesSet pty (log ++ [ev]) = sizesSet pty log := by
    rw [sizesSet_snoc, hset, Option.toList_none, List.append_nil]
  have htell : GridsTell (log ++ [ev]) ↔ GridsTell log := by
    rw [GridsTell, hobs, GridsTell]
  obtain ⟨hcurrent, hcount, hgrid⟩ := h
  rw [← hsets] at hcurrent hcount
  rw [← hobs] at hcount hgrid
  exact ⟨hcurrent, hcount, by rwa [htell]⟩

theorem Tracked.kept {pty : Fd} {cached current : Winsize} {log : Log}
    (h : Tracked pty cached log) (hsame : SameGrid cached current) :
    Tracked pty cached (log ++ [⟨.tcgetwinsize stdout, .ok current⟩]) := by
  obtain ⟨earlier, last, hobserved, hgrid, hcached⟩ := h.grid
  have hlast : SameGrid last current :=
    ⟨hgrid.1.symm.trans hsame.1, hgrid.2.symm.trans hsame.2⟩
  have hobs : observed (log ++ [⟨.tcgetwinsize stdout, .ok current⟩]) =
      (earlier ++ [last]) ++ [current] := by
    rw [observed_snoc, hobserved]
    rfl
  have hsets : sizesSet pty (log ++ [⟨.tcgetwinsize stdout, .ok current⟩]) = sizesSet pty log := by
    rw [sizesSet_snoc]
    exact List.append_nil _
  refine ⟨hsets ▸ h.current, ?_, _, current, hobs, hsame, fun htell => ?_⟩
  · have hchanges := changes_snoc (R := SameGrid) earlier last current
    rw [if_pos hlast, Nat.add_zero] at hchanges
    rw [hsets, h.count, hobs, hobserved, List.append_assoc]
    exact congrArg _ hchanges.symm
  · rw [GridsTell, hobs, List.isChain_append] at htell
    obtain ⟨hbefore, -, hnext⟩ := htell
    rw [hcached (by rwa [GridsTell, hobserved])]
    exact hnext last List.getLast?_concat current rfl hlast

theorem Tracked.replaced {pty : Fd} {cached current : Winsize} {log : Log}
    (h : Tracked pty cached log) (hdiffers : ¬SameGrid cached current) :
    Tracked pty current (log ++ [⟨.tcgetwinsize stdout, .ok current⟩] ++
      [⟨.tcsetwinsize pty current, .ok ()⟩]) := by
  obtain ⟨earlier, last, hobserved, hgrid, -⟩ := h.grid
  have hlast : ¬SameGrid last current := fun hsame =>
    hdiffers ⟨hgrid.1.trans hsame.1, hgrid.2.trans hsame.2⟩
  have hobs : observed (log ++ [⟨.tcgetwinsize stdout, .ok current⟩] ++
      [⟨.tcsetwinsize pty current, .ok ()⟩]) = (earlier ++ [last]) ++ [current] := by
    rw [observed_snoc, observed_snoc, hobserved]
    exact List.append_nil _
  have hsets : sizesSet pty (log ++ [⟨.tcgetwinsize stdout, .ok current⟩] ++
      [⟨.tcsetwinsize pty current, .ok ()⟩]) = sizesSet pty log ++ [current] := by
    rw [sizesSet_snoc, sizesSet_snoc]
    simp [setBy]
  refine ⟨?_, ?_, _, current, hobs, ⟨rfl, rfl⟩, fun _ => rfl⟩
  · rw [hsets, List.getLast?_concat]
  · have hchanges := changes_snoc (R := SameGrid) earlier last current
    rw [if_neg hlast] at hchanges
    rw [hsets, List.length_append, h.count, hobs, hobserved, List.append_assoc, Nat.add_assoc]
    exact congrArg _ hchanges.symm

section Loop

variable {ε : Type} {pty : Fd} {cached : Winsize} {log : Log}

/-- Whenever anything else is called, the size of the PTY is right if and only if the
sizes differed in their rows and columns when they differed. -/
def Checked (pty : Fd) (log : Log) (c : Syscall) : Prop :=
  ¬Sizes c → (Propagated pty log ↔ GridsTell log)

theorem initialWinsize_wp (pty : Fd) :
    (initialWinsize (ε := ε) (some pty)).wp (recording Succeeding) (Checked pty)
      (fun o log => ∃ cached, o = .value (some cached) ∧ Tracked pty cached log) [] := by
  simp only [initialWinsize, Program.bind_eq, Program.wp_bind]
  refine getWinsize_wp (fun hnot => absurd trivial hnot) ?_
  rintro (e | ws) _ ⟨rfl, hpossible⟩
  · exact hpossible.elim
  rw [Outcome.andThen_value, Program.wp_bind]
  refine setWinsize_wp (fun hnot => absurd trivial hnot) ?_
  rintro (e | _) _ ⟨rfl, hpossible⟩
  · exact hpossible.elim
  have hsets : sizesSet pty [⟨.tcgetwinsize stdout, .ok ws⟩, ⟨.tcsetwinsize pty ws, .ok ()⟩] =
      [ws] := by
    refine (sizesSet_snoc pty [⟨.tcgetwinsize stdout, .ok ws⟩] _).trans ?_
    simp [sizesSet, setBy]
  exact ⟨ws, rfl, congrArg List.getLast? hsets, congrArg List.length hsets,
    [], ws, rfl, ⟨rfl, rfl⟩, fun _ => rfl⟩

theorem checkWinsize_wp (h : Tracked pty cached log) :
    (checkWinsize (ε := ε) (some pty) (some cached)).wp (recording Succeeding) (Checked pty)
      (fun o log => ∃ cached, o = .value (some cached) ∧ Tracked pty cached log) log := by
  simp only [checkWinsize, Program.bind_eq, Program.wp_bind]
  refine getWinsize_wp (fun hnot => absurd trivial hnot) ?_
  rintro (e | current) _ ⟨rfl, hpossible⟩
  · exact hpossible.elim
  simp only [Outcome.andThen_value]
  split
  · next hdiffers =>
      rw [Program.wp_bind]
      refine setWinsize_wp (fun hnot => absurd trivial hnot) ?_
      rintro (e | _) _ ⟨rfl, hpossible⟩
      · exact hpossible.elim
      refine ⟨current, rfl, h.replaced fun hsame => ?_⟩
      rcases hdiffers with hrow | hcol
      · exact hrow hsame.1.symm
      · exact hcol hsame.2.symm
  · next hkept =>
      obtain ⟨hrow, hcol⟩ := not_or.mp hkept
      refine ⟨cached, rfl, h.kept ⟨?_, ?_⟩⟩
      · exact (Decidable.not_not.mp hrow).symm
      · exact (Decidable.not_not.mp hcol).symm

theorem serve_tracked (h : Tracked pty cached log) (pairs : List FilePairBuffer.FilePair)
    (ready : List Bool) :
    (serve (ε := ε) pairs ready).wp (recording Succeeding) (Checked pty)
      (fun _ log => Tracked pty cached log) log := by
  have htransfers : (serve (ε := ε) pairs ready).Within Transfers fun _ => True :=
    serve_transfers trivial pairs ready
  refine Program.wp_post (htransfers.wp (fun log c htracked _ _ => htracked.propagated_iff)
    (fun log c r log' htracked hc answer => ?_) h) fun o log' ho => ho.1
  obtain ⟨rfl, -⟩ := answer
  cases c with
  | read file size => exact htracked.snoc_other _ rfl rfl
  | write file bytes => exact htracked.snoc_other _ rfl rfl
  | _ => exact hc.elim

def AtHead (pty : Fd) (st : ShovelState) (log : Log) : Prop :=
  ∃ cached, st.lastWinsize = some cached ∧ Tracked pty cached log

/-- What a run of shovel has come to. -/
def Ends (pty : Fd) (_ : Outcome Halt ε Unit) (log : Log) : Prop :=
  Propagated pty log ↔ GridsTell log

theorem round_wp {st : ShovelState} (h : AtHead pty st log) :
    (shovelRound (ε := ε) (some pty) st).wp (recording Succeeding) (Checked pty)
      (RoundEnds (AtHead pty) (Ends pty)) log := by
  obtain ⟨cached, hcached, htracked⟩ := h
  refine shovelRound_wp (fun _ => htracked.propagated_iff) ?_ ?_
  · rintro e _ ⟨rfl, -⟩
    have hnext := htracked.snoc_other ⟨.poll (st.pairs.map pollFd)
      ((some pty).map fun _ => pollTimeout), .error e⟩ rfl rfl
    split
    · exact ⟨cached, hcached, hnext⟩
    · exact hnext.propagated_iff
  · rintro revents _ ⟨rfl, -⟩
    rw [hcached]
    refine Program.wp_post (checkWinsize_wp (htracked.snoc_other _ rfl rfl)) fun o log₁ ho => ?_
    obtain ⟨current, rfl, hchecked⟩ := ho
    refine ⟨_, rfl, Program.wp_post (serve_tracked hchecked st.pairs revents.1)
      fun o log₂ ho => ?_⟩
    rcases o with ⟨_ | _, pairs⟩ | e | e
    · exact ho.propagated_iff
    · exact ⟨current, rfl, ho⟩
    · exact ho.propagated_iff
    · exact ho.propagated_iff

theorem shovel_wp (pairs : List FilePairBuffer.FilePair) (pty : Fd) :
    (shovel (ε := ε) pairs (some pty)).wp (recording Succeeding) (Checked pty) (Ends pty) [] := by
  refine shovel_rule (Program.wp_post (initialWinsize_wp pty) fun o log ho => ?_)
    fun _ _ => round_wp
  obtain ⟨cached, rfl, htracked⟩ := ho
  exact ⟨_, rfl, cached, rfl, htracked⟩

end Loop

/-- Whatever sizes are observed and however often `poll` is interrupted: at each call
other than those of a size check, and at the end, the size of the PTY is right if and
only if no two sizes that follow on each other differ in their pixels only. -/
theorem shovel_propagates_iff {ε : Type} (pairs : List FilePairBuffer.FilePair) (pty : Fd) :
    (∀ (c : Syscall) (log : Log),
      (shovel (ε := ε) pairs (some pty)).Issues (recording Succeeding) [] c log →
      ¬Sizes c → (Propagated pty log ↔ GridsTell log)) ∧
    ∀ (o : Outcome Halt ε Unit) (log : Log),
      (shovel pairs (some pty)).Runs (recording Succeeding) [] o log →
      (Propagated pty log ↔ GridsTell log) :=
  ⟨fun _ _ issue => issue.of_wp (shovel_wp pairs pty),
    fun _ _ run => run.of_wp (shovel_wp pairs pty)⟩

/-- A terminal whose font is made larger while nothing else happens: its rows and
columns stay, and then `poll` fails. -/
def zoomed (log : Log) : (c : Syscall) → c.Answer
  | .tcgetwinsize _ =>
      .ok (if observed log = [] then ⟨24, 80, 640, 480⟩ else ⟨24, 80, 1280, 960⟩)
  | .tcsetwinsize _ _ => .ok ()
  | .poll fds _ =>
      if (observed log).length < 2 then .ok ⟨fds.map fun _ => false, by simp⟩ else .error .perm
  | c => c.refused

theorem succeeding_zoomed (log : Log) (c : Syscall) : Succeeding log ⟨c, zoomed log c⟩ := by
  cases c <;> trivial

/-- The PTY keeps the size it was given first. -/
theorem shovel_keepsPixels :
    ∃ log, (shovel (ε := Empty) [] (some 3)).Runs (recording Succeeding) [] (.value ()) log ∧
      sizesSet 3 log = [⟨24, 80, 640, 480⟩] ∧
      observed log = [⟨24, 80, 640, 480⟩, ⟨24, 80, 1280, 960⟩] ∧ ¬Propagated 3 log := by
  have hplay : ((shovel (ε := Empty) [] (some 3)).replay zoomed 4 []).any (fun r =>
      decide (r.1 = .value ()) && decide (sizesSet 3 r.2 = [⟨24, 80, 640, 480⟩]) &&
        decide (observed r.2 = [⟨24, 80, 640, 480⟩, ⟨24, 80, 1280, 960⟩])) = true := by
    decide +kernel
  obtain ⟨⟨o, log⟩, hrun, hend⟩ := (Option.any_eq_true _ _).mp hplay
  rw [Bool.and_eq_true, Bool.and_eq_true, decide_eq_true_eq, decide_eq_true_eq,
    decide_eq_true_eq] at hend
  obtain ⟨⟨rfl, hsets⟩, hobserved⟩ := hend
  refine ⟨log, .of_play (fun log c => ⟨rfl, succeeding_zoomed log c⟩) hrun, hsets, hobserved, ?_⟩
  intro hpropagated
  have hcurrent := hpropagated.current
  rw [hsets, hobserved] at hcurrent
  exact absurd hcurrent (by decide)

end Cntr.WindowSizes
