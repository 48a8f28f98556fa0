import Cntr.ForkingPrograms
import Cntr.ProcessRoles
import Mathlib.Data.List.Nodup
import Mathlib.Data.List.TakeWhile

/-!
The processes of one invocation of the program: there are at most three, each
has its own part of the system calls, and one of them at most becomes the
command.
-/

namespace Cntr.ProcessSystem

open Cntr.ByteText
open Cntr.CallTree
open Cntr.SystemCalls
open Cntr.EntryPoint (plainLinked)
open Cntr.ForkingPrograms
open Cntr.HostCalls
open Cntr.ProcessRoles

section Processes

variable {τ σ : Type}

def hostMark : Event (linuxAndHost τ) → Option Mark
  | ⟨.inl c, r⟩ => mark ⟨c, r⟩
  | ⟨.inr _, _⟩ => none

/-- What is remembered of a process that has done all this. -/
def marksOf (log : List (Event (linuxAndHost τ))) : List Mark := log.filterMap hostMark

def processRole (log : List (Event (linuxAndHost τ))) : Option Role := roleOf (marksOf log)

/-- `fork` is the call that makes a process. -/
def unixFork (τ : Type) : Forking (linuxAndHost τ) where
  side
    | .inl .fork, .ok (.parentOf _) => some .parent
    | .inl .fork, .ok .child => some .child
    | _, _ => none
  childAnswer
    | .inl .fork, _ => .ok .child
    | _, r => r
  side_childAnswer c r h := by
    split at h <;> first | rfl | cases h

theorem hostMark_of_parent (c : (linuxAndHost τ).Call) (r : (linuxAndHost τ).Answer c)
    (h : (unixFork τ).side c r = some .parent) : hostMark ⟨c, r⟩ = some .forked := by
  simp only [unixFork] at h
  split at h <;> first | rfl | cases h

theorem hostMark_of_child (c : (linuxAndHost τ).Call) (r : (linuxAndHost τ).Answer c)
    (h : (unixFork τ).side c r = some .child) : hostMark ⟨c, r⟩ = some .born := by
  simp only [unixFork] at h
  split at h <;> first | rfl | cases h

theorem marking_of_tracing {log log' : List (Event (linuxAndHost τ))}
    {c : (linuxAndHost τ).Call} {r : (linuxAndHost τ).Answer c}
    (answer : tracing (linuxAndHost τ) log c r log') :
    marking.beyond (marksOf log) c r (marksOf log') := by
  have hlog : log' = log ++ [⟨c, r⟩] := answer
  have hmarks : marksOf log' = marksOf log ++ (hostMark ⟨c, r⟩).toList := by
    rw [hlog, marksOf, filterMap_concat]
    rfl
  rw [hmarks]
  cases c with
  | inl c => rfl
  | inr c => exact List.append_nil _

variable {linked : EntryPoint.Linked τ} {args : List Bytes}

theorem issue_permitted {c : (linuxAndHost τ).Call} {log : List (Event (linuxAndHost τ))}
    (issue : (EntryPoint.main linked args).Issues (tracing _) [] c log) :
    ProgramSafety.Guard Permits (fun marks => marks = []) (marksOf log) c :=
  (issue.map (f := marksOf) fun _ _ _ _ => marking_of_tracing).of_wp
    (program_permitted.main linked args [] rfl)

theorem role_after {c : (linuxAndHost τ).Call} {log : List (Event (linuxAndHost τ))}
    (issue : (EntryPoint.main linked args).Issues (tracing _) [] c log)
    (r : (linuxAndHost τ).Answer c) : (processRole (log ++ [⟨c, r⟩])).isSome := by
  have hpermits := issue_permitted issue
  rw [processRole, marksOf, filterMap_concat]
  cases c with
  | inl c => exact hpermits.2.2 r
  | inr c =>
      have hempty : marksOf log = [] := hpermits
      rw [← marksOf, hempty]
      rfl

/-- The marks of all processes that have a role. -/
def roleMarks : List (List Mark) :=
  [[], [.mapping], [.forked], [.mapping, .forked], [.mapping, .forked, .forked],
    [.mapping, .born], [.born], [.mapping, .forked, .born], [.born, .executed],
    [.mapping, .forked, .born, .executed]]

theorem mem_roleMarks {marks : List Mark} (h : (roleOf marks).isSome) : marks ∈ roleMarks := by
  unfold roleOf at h
  split at h <;> first | (simp [roleMarks]; done) | cases h

/-- On the two sides of a fork there are two roles. -/
theorem roleOf_ne {before after after' : List Mark}
    (h : (roleOf (before ++ .forked :: after)).isSome)
    (h' : (roleOf (before ++ .born :: after')).isSome) :
    roleOf (before ++ .forked :: after) ≠ roleOf (before ++ .born :: after') := by
  have hall : ∀ marks ∈ roleMarks, ∀ marks' ∈ roleMarks, ∀ k ∈ List.range 4,
      marks.take k = marks'.take k → marks[k]? = some .forked → marks'[k]? = some .born →
        roleOf marks ≠ roleOf marks' := by
    decide +kernel
  have hlength : before.length < 4 := by
    have hshort : ∀ marks ∈ roleMarks, marks.length ≤ 4 := by decide +kernel
    have hle := hshort _ (mem_roleMarks h)
    rw [List.length_append, List.length_cons] at hle
    omega
  apply hall _ (mem_roleMarks h) _ (mem_roleMarks h') _ (List.mem_range.mpr hlength)
  · rw [List.take_left, List.take_left]
  · simp
  · simp

section System

variable {effect : List (Event (linuxAndHost τ)) → Event (linuxAndHost τ) → σ → σ → Prop}
  {init : σ} {w : System (linuxAndHost τ) σ}

theorem processRole_isSome
    (reachable : Reachable (unixFork τ) (EntryPoint.main linked args) effect init w) :
    ∀ log ∈ w.processes, (processRole log).isSome :=
  reachable.forall_processes (P := fun log => (processRole log).isSome)
    (fun _ _ r issue _ => role_after issue r) rfl

theorem processRole_nodup
    (reachable : Reachable (unixFork τ) (EntryPoint.main linked args) effect init w) :
    (w.processes.map processRole).Nodup := by
  refine reachable.nodup processRole (fun log => (processRole log).isSome)
    (processRole_isSome reachable) fun log log' h h' hdiverge => ?_
  obtain ⟨before, after, after', hlog, hlog'⟩ := hdiverge.filterMap (f := hostMark)
    hostMark_of_parent hostMark_of_child
  rw [processRole, marksOf, hlog] at h ⊢
  rw [processRole, marksOf, hlog'] at h' ⊢
  exact roleOf_ne h h'

/-- How often a process has become the command. -/
def executions (log : List (Event (linuxAndHost τ))) : Nat := (marksOf log).count .executed

theorem executions_le {log : List (Event (linuxAndHost τ))} (h : (processRole log).isSome) :
    executions log ≤ if processRole log == some .child then 1 else 0 := by
  have hall : ∀ marks ∈ roleMarks,
      marks.count .executed ≤ if roleOf marks == some .child then 1 else 0 := by
    decide +kernel
  exact hall _ (mem_roleMarks h)

theorem sum_map_le_count {α ρ : Type} [BEq ρ] [LawfulBEq ρ] {f : α → ρ} {g : α → Nat}
    {target : ρ} {xs : List α} (h : ∀ x ∈ xs, g x ≤ if f x == target then 1 else 0) :
    (xs.map g).sum ≤ (xs.map f).count target := by
  induction xs with
  | nil => exact Nat.le_refl _
  | cons x xs ih =>
      have hx := h x (by simp)
      have hxs := ih fun y hy => h y (List.mem_cons_of_mem x hy)
      rw [List.map_cons, List.map_cons, List.sum_cons, List.count_cons]
      omega

/-- The command is executed at most once by all processes together, and the process
that has become it makes no call any more. -/
theorem executed_once
    (reachable : Reachable (unixFork τ) (EntryPoint.main linked args) effect init w) :
    (w.processes.map executions).sum ≤ 1 ∧
      ∀ log ∈ w.processes, 0 < executions log →
        ∀ c, ¬(EntryPoint.main linked args).Issues (tracing _) [] (.inl c) log := by
  constructor
  · have hnodup := processRole_nodup reachable
    calc (w.processes.map executions).sum
        ≤ (w.processes.map processRole).count (some .child) :=
          sum_map_le_count fun log hmem => executions_le (processRole_isSome reachable log hmem)
      _ ≤ 1 := List.nodup_iff_count_le_one.mp hnodup _
  · intro log _ hexecuted c issue
    exact (issue_permitted issue).1 (List.count_pos_iff.mp hexecuted)

end System

end Processes

section Example

def attachForJoe : List Bytes :=
  [ascii "cntr", ascii "attach", ascii "--apparmor", ascii "off", ascii "--effective-user",
    ascii "joe", ascii "box"]

def isChildSide (ev : Event (linuxAndHost Unit)) : Bool :=
  (unixFork Unit).side ev.1 ev.2 = some .child

/-- A host on which whatever is needed succeeds; the process that asks is the
parent of the helper and then the child that attaches. -/
def childOfJoe (log : List (Event (linuxAndHost Unit))) :
    (c : (linuxAndHost Unit).Call) → (linuxAndHost Unit).Answer c
  | .inr .setDumpable => .ok ()
  | .inr (.fsopen _) => .ok ()
  | .inr (.getpwnam _ _) => .ok (some ⟨1000, 100, ascii "/home/joe"⟩)
  | .inr (.lookupContainerPid _ _) => .ok 42
  | .inr (.print _) => ()
  | .inl .pipe => .ok (3, 4)
  | .inl .fork => .ok (if .forked ∈ marksOf log then .child else .parentOf somePid)
  | .inl (.read _ size) => if h : 1 ≤ size then .ok ⟨[82], h⟩ else .error .invalidData
  | .inl (.openLines path) =>
      .ok (if path = ascii "/proc/42/status" then [.ok (ascii "CapEff:\t0")] else [])
  | .inl (.readToString _) => .ok (ascii "0")
  | .inl (.metadata _) => .ok ⟨0, 0⟩
  | .inl (.openFile _ _) => .ok ()
  | .inl (.nextSplit _ _) | .inl (.nextLine _) => .ok none
  | .inl (.readLink _) => .ok (ascii "/")
  | .inl (.readDir _) => .ok [.ok (ascii "mnt")]
  | .inl (.createDirAll _) | .inl .unshareMount | .inl .makeMountsPrivate => .ok ()
  | .inl (.mountTmpfs _) | .inl .socketpair | .inl (.sendmsg _ _) => .ok ()
  | .inl (.openNamespace _ _ _) => .ok 7
  | .inl (.setns _ _) => .ok ()
  | .inl .readContainerRoot => .ok []
  | .inl (.exec _ _ _) => .ok ()
  | .inl c => c.refused

theorem event_of_isChildSide {ev : Event (linuxAndHost Unit)} (h : isChildSide ev = true) :
    ev = ⟨.inl .fork, .ok .child⟩ := by
  obtain ⟨c, r⟩ := ev
  have hside : (unixFork Unit).side c r = some .child := of_decide_eq_true h
  simp only [unixFork] at hside
  split at hside <;> first | rfl | cases hside

/-- The events at which what the processes share may stay as it is. -/
def isPlain : Event (linuxAndHost Unit) → Bool
  | ⟨.inl .readContainerRoot, .ok listing⟩ => listing.isEmpty
  | _ => true

/-- A state that the processes of an invocation for `joe` come to. -/
abbrev ReachableForJoe {σ : Type}
    (effect : List (Event (linuxAndHost Unit)) → Event (linuxAndHost Unit) → σ → σ → Prop)
    (init : σ) (w : System (linuxAndHost Unit) σ) : Prop :=
  Reachable (unixFork Unit) (EntryPoint.main plainLinked attachForJoe) effect init w

/-- Three processes, of which one has become the command. -/
theorem exists_reachable {σ : Type}
    (effect : List (Event (linuxAndHost Unit)) → Event (linuxAndHost Unit) → σ → σ → Prop)
    (init : σ) (hstays : ∀ log ev, isPlain ev = true → effect log ev init init) :
    ∃ w : System (linuxAndHost Unit) σ, ReachableForJoe effect init w ∧
      3 ≤ w.processes.length ∧ ∃ log ∈ w.processes, 0 < executions log := by
  have hplay : ((EntryPoint.main plainLinked attachForJoe).replay childOfJoe 8 []).any
      (fun r => r.2.any isChildSide && 0 < executions r.2 && r.2.all isPlain &&
        !((r.2.dropWhile fun ev => !isChildSide ev).tail.any isChildSide) &&
        (Forking.bornOn (unixFork Unit) []
          (r.2.takeWhile fun ev => !isChildSide ev)).length = 1) = true := by
    decide +kernel
  obtain ⟨⟨o, log⟩, hrun, hend⟩ := (Option.any_eq_true _ _).mp hplay
  simp only [Bool.and_eq_true, decide_eq_true_eq, Bool.not_eq_true'] at hend
  obtain ⟨⟨⟨⟨hany, hexecuted⟩, hplain⟩, htail⟩, hborn⟩ := hend
  have run := Program.Runs.of_replay childOfJoe 8 hrun
  -- the run up to the fork at which the process is the child, and what follows
  obtain ⟨ev, post, hdrop⟩ : ∃ ev post, log.dropWhile (fun ev => !isChildSide ev) = ev :: post := by
    cases hdrop : log.dropWhile fun ev => !isChildSide ev with
    | nil =>
        obtain ⟨ev, hmem, hside⟩ := List.any_eq_true.mp hany
        have hnone := List.dropWhile_eq_nil_iff.mp hdrop ev hmem
        rw [hside] at hnone
        cases hnone
    | cons ev post => exact ⟨ev, post, rfl⟩
  have hev : isChildSide ev = true := by
    have hhead := List.head?_dropWhile_not (fun ev => !isChildSide ev) log
    rw [hdrop] at hhead
    simpa using hhead
  obtain rfl := event_of_isChildSide hev
  generalize hpre : log.takeWhile (fun ev => !isChildSide ev) = pre at hborn
  have hlog : log = pre ++ ⟨.inl .fork, .ok .child⟩ :: post := by
    rw [← hpre, ← hdrop, List.takeWhile_append_dropWhile]
  have hkept : ∀ log' ev, ev ∈ pre ∨ ev ∈ post → effect log' ev init init := by
    intro log' ev hmem
    apply hstays
    refine List.all_eq_true.mp hplain ev ?_
    rw [hlog]
    rcases hmem with hmem | hmem <;> simp [hmem]
  have hsides : ∀ ev ∈ pre, (unixFork Unit).side ev.1 ev.2 ≠ some .child := by
    intro ev hmem
    rw [← hpre] at hmem
    simpa [isChildSide] using List.mem_takeWhile_imp hmem
  have hsides' : ∀ ev ∈ post, (unixFork Unit).side ev.1 ev.2 ≠ some .child := by
    intro ev hmem
    rw [hdrop, List.tail_cons] at htail
    simpa [isChildSide] using List.any_eq_false.mp htail ev hmem
  have hstart : Reachable (unixFork Unit) (EntryPoint.main plainLinked attachForJoe) effect init
      ⟨[] ++ [] :: [], init⟩ := .refl
  have hrun : (EntryPoint.main plainLinked attachForJoe).Runs (tracing _) [] o
      ([] ++ pre ++ ⟨.inl .fork, .ok .child⟩ :: post) := by
    simpa [hlog] using run
  have hparent := hstart.advance (fun log ev hmem => hkept log ev (.inl hmem)) hrun hsides
  have issue : (EntryPoint.main plainLinked attachForJoe).Issues (tracing _) []
      (.inl .fork) pre := issues_of_runs hrun pre post rfl
  have hforked : Reachable (unixFork Unit) (EntryPoint.main plainLinked attachForJoe) effect init
      ⟨(pre ++ [⟨.inl .fork, .ok (.parentOf somePid)⟩]) ::
        ((unixFork Unit).bornOn [] pre ++ [pre ++ [⟨.inl .fork, .ok .child⟩]]), init⟩ :=
    hparent.tail (.call issue (r := (Except.ok (.parentOf somePid) : Except Errno Fork))
      (by decide) (hstays _ _ rfl))
  have hrest : (EntryPoint.main plainLinked attachForJoe).Runs (tracing _) [] o
      ((pre ++ [⟨.inl .fork, .ok .child⟩]) ++ post ++ []) := by
    simpa [hlog] using run
  rw [← List.cons_append] at hforked
  have hchild := hforked.advance (fun log ev hmem => hkept log ev (.inr hmem)) hrest hsides'
  refine ⟨_, hchild, ?_, log, ?_, hexecuted⟩
  · simp only [List.length_append, List.length_cons, hborn]
    omega
  · simp [hlog]

/-- Nothing that the processes share is of interest. -/
def anyEffect (_ : List (Event (linuxAndHost Unit))) (_ : Event (linuxAndHost Unit))
    (_ _ : Unit) : Prop := True

theorem executed_once_joe :
    ∃ w : System (linuxAndHost Unit) Unit, ReachableForJoe anyEffect () w ∧
      0 < (w.processes.map executions).sum ∧
      (w.processes.map executions).sum ≤ 1 ∧
      ∀ log ∈ w.processes, 0 < executions log → ∀ c,
        ¬(EntryPoint.main plainLinked attachForJoe).Issues (tracing _) [] (.inl c) log := by
  obtain ⟨w, reachable, -, log, hmem, hexecuted⟩ := exists_reachable anyEffect ()
    fun _ _ _ => trivial
  refine ⟨w, reachable, ?_, executed_once reachable⟩
  exact List.sum_pos_iff_exists_pos_nat.mpr ⟨_, List.mem_map.mpr ⟨log, hmem, rfl⟩, hexecuted⟩

end Example

end Cntr.ProcessSystem
