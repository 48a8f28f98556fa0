import Cntr.IdmapHelperProcess
import Cntr.CallTreeFrames
import Mathlib.Logic.Relation

/-!
The process that makes a user namespace for `attach`, beside the process that
waits for it at the other end of a pipe.
-/

namespace Cntr.HelperHandshake

open Cntr.ByteText
open Cntr.CallTree
open Cntr.SystemCalls
open Cntr.IdmapHelperProcess
open Cntr.WholeWrites

/-- How far the helper has come: whether it has a user namespace of its own, the
maps of that namespace, and what it has written to the pipe. -/
structure Progress where
  unshared : Bool
  uidMap : Option Bytes
  gidMap : Option Bytes
  written : Bytes

namespace Progress

def start : Progress := ⟨false, none, none, []⟩

/-- A new namespace has no map yet, and a map is only written once. -/
def after (writeFd : Fd) (progress : Progress) : Event linux → Progress
  | ⟨.unshareUser, .ok _⟩ => { progress with unshared := true, uidMap := none, gidMap := none }
  | ⟨.writePath path contents, .ok _⟩ =>
      if path = ascii "/proc/self/uid_map" then
        { progress with uidMap := progress.uidMap.or (some contents) }
      else if path = ascii "/proc/self/gid_map" then
        { progress with gidMap := progress.gidMap.or (some contents) }
      else progress
  | ev => { progress with written := progress.written ++ writtenBy (.syncPipe writeFd) ev }

/-- The namespace is the helper's own, and both maps are there as a whole. -/
structure Complete (mapping : IdMapping) (progress : Progress) : Prop where
  unshared : progress.unshared = true
  uidMap : progress.uidMap = some (idMap mapping.innerUid mapping.outerUid)
  gidMap : progress.gidMap = some (idMap mapping.innerGid mapping.outerGid)

end Progress

/-- The progress of a helper that has made these calls. -/
def progressOf (writeFd : Fd) (log : Log) : Progress :=
  log.foldl (Progress.after writeFd) Progress.start

theorem progressOf_concat (writeFd : Fd) (log : Log) (ev : Event linux) :
    progressOf writeFd (log ++ [ev]) = (progressOf writeFd log).after writeFd ev :=
  List.foldl_concat ..

/-- What the helper only does after what. -/
def Orderly (mapping : IdMapping) (progress : Progress) : Syscall → Prop
  | .unshareUser | .writePath _ _ => progress.written = []
  | .write (.syncPipe _) _ => progress.Complete mapping
  | .sleep => progress.written ≠ []
  | _ => True

/-- The kernel that keeps the progress. -/
def progressing (writeFd : Fd) : Kernel linux Progress :=
  fun progress c r progress' => progress' = progress.after writeFd ⟨c, r⟩

section Helper

variable {mapping : IdMapping} {readFd writeFd : Fd} {progress : Progress}

theorem setupUserns_wp (hwritten : progress.written = []) :
    (setupUserns mapping).wp (progressing writeFd) (Orderly mapping)
      (fun o progress' => o = .value () → progress'.Complete mapping ∧ progress'.written = [])
      progress := by
  refine ⟨hwritten, ?_⟩
  rintro (e | _) _ rfl
  · rintro ⟨⟩
  refine ⟨hwritten, fun r _ answer => ?_⟩
  subst answer
  have hkept : ((progress.after writeFd ⟨.unshareUser, .ok ()⟩).after writeFd
      ⟨.writePath (ascii "/proc/self/setgroups") (ascii "deny"), r⟩) =
        ⟨true, none, none, []⟩ := by
    have huid : ascii "/proc/self/setgroups" ≠ ascii "/proc/self/uid_map" := by decide
    have hgid : ascii "/proc/self/setgroups" ≠ ascii "/proc/self/gid_map" := by decide
    cases r with
    | error e => simp [Progress.after, writtenBy, hwritten]
    | ok _ => simp [Progress.after, hwritten, huid, hgid]
  rw [hkept]
  refine ⟨rfl, ?_⟩
  rintro (e | _) _ rfl
  · rintro ⟨⟩
  refine ⟨rfl, ?_⟩
  rintro (e | _) _ rfl
  · rintro ⟨⟩
  · rintro -
    exact ⟨⟨rfl, rfl, rfl⟩, rfl⟩

theorem after_write (fd : Fd) (progress : Progress) (bytes : Bytes)
    (r : Syscall.Answer (.write (.syncPipe fd) bytes)) :
    progress.after writeFd ⟨.write (.syncPipe fd) bytes, r⟩ =
      { progress with
        written := progress.written ++
          writtenBy (.syncPipe writeFd) ⟨.write (.syncPipe fd) bytes, r⟩ } := by
  cases r <;> rfl

theorem writeReady_wp (hcomplete : progress.Complete mapping) (hwritten : progress.written = []) :
    (writeAll (ε := IdmapError) (.syncPipe writeFd) (ascii "R")).wp (progressing writeFd)
      (Orderly mapping) (fun o progress' => o = .value (.ok ()) → progress'.written ≠ [])
      progress := by
  refine ⟨fun rest progress' => progress'.Complete mapping ∧
    progress'.written ++ rest = ascii "R", ⟨hcomplete, by rw [hwritten]; rfl⟩, ?_⟩
  rintro rest progress ⟨hcomplete, hrest⟩
  cases rest with
  | nil =>
      rintro -
      rw [List.append_nil] at hrest
      rw [hrest]
      decide
  | cons b rest =>
      refine ⟨hcomplete, ?_⟩
      rintro (e | written) progress' answer
      · have hsame : progress' = progress := by
          rw [show progress' = _ from answer, after_write]
          simp [writtenBy]
        subst hsame
        show Program.wp _ _ (if e = .interrupted then _ else _) _ _
        split
        · exact ⟨hcomplete, hrest⟩
        · rintro ⟨⟩
      · have hmore : progress' = { progress with
            written := progress.written ++ (b :: rest).take written } := by
          rw [show progress' = _ from answer, after_write]
          simp [writtenBy]
        subst hmore
        show Program.wp _ _ (if written.val = 0 then _ else _) _ _
        split
        · rintro ⟨⟩
        · refine ⟨⟨hcomplete.unshared, hcomplete.uidMap, hcomplete.gidMap⟩, ?_⟩
          rw [List.append_assoc, List.take_append_drop]
          exact hrest

/-- The helper says that it is ready when it is. -/
theorem helperProcess_wp :
    (helperProcess mapping readFd writeFd).wp (progressing writeFd) (Orderly mapping)
      (fun _ _ => True) Progress.start := by
  refine ⟨trivial, ?_⟩
  rintro _ _ rfl
  show Program.wp _ _ ((setupUserns mapping).attempt.bind _) _ _
  rw [Program.wp_bind, Program.wp_attempt]
  refine Program.wp_post (setupUserns_wp rfl) fun o progress ho => ?_
  rcases o with _ | e | h
  · obtain ⟨hcomplete, hwritten⟩ := ho rfl
    show Program.wp _ _ ((writeAll (.syncPipe writeFd) (ascii "R")).bind _) _ _
    refine Program.wp_seq (writeReady_wp hcomplete hwritten) fun o progress ho => ?_
    rcases o with (e | _) | e | h
    · trivial
    · refine ⟨fun _ progress => progress.written ≠ [], ho rfl, fun _ progress hready => ?_⟩
      refine ⟨hready, ?_⟩
      rintro _ _ rfl
      simpa [Progress.after, writtenBy] using hready
    · trivial
    · trivial
  · trivial
  · trivial

/-- A call of the helper that was made in order. -/
theorem issue_orderly {c : Syscall} {log : Log}
    (issue : (helperProcess mapping readFd writeFd).Issues (tracing linux) [] c log) :
    Orderly mapping (progressOf writeFd log) c := by
  have hviewed : (helperProcess mapping readFd writeFd).Issues (progressing writeFd)
      (progressOf writeFd []) c (progressOf writeFd log) := by
    refine issue.map (f := progressOf writeFd) fun log c r log' answer => ?_
    have hlog : log' = log ++ [(⟨c, r⟩ : Event linux)] := answer
    rw [hlog, progressOf_concat]
    rfl
  exact hviewed.of_wp helperProcess_wp

end Helper

/-- The two processes and the pipe between them. -/
structure World where
  helperLog : Log
  helperEnded : Bool
  parentHoldsWriteEnd : Bool
  received : Bytes
  pipe : Bytes

def World.forked : World := ⟨[], false, true, [], []⟩

section Steps

variable (mapping : IdMapping) (readFd writeFd : Fd)

/-- The helper makes its next call, or it ends, by itself or by a signal. -/
inductive HelperStep : World → World → Prop where
  | call {w : World} {c : Syscall} (r : c.Answer) (alive : w.helperEnded = false)
      (issue : (helperProcess mapping readFd writeFd).Issues (tracing linux) [] c w.helperLog) :
      HelperStep w
        { w with
          helperLog := w.helperLog ++ [⟨c, r⟩]
          pipe := w.pipe ++ writtenBy (.syncPipe writeFd) ⟨c, r⟩ }
  | ended {w : World} (alive : w.helperEnded = false) :
      HelperStep w { w with helperEnded := true }

variable (child : Pid) (own inherited : NsId)

/-- The number of the user namespace that the helper is in. -/
def World.userns (w : World) : NsId :=
  if (progressOf writeFd w.helperLog).unshared then own else inherited

/-- The calls that have to do with the helper or the pipe. -/
def Concerned : Syscall → Prop
  | .read (.syncPipe fd) _ => fd = readFd
  | .closeFd fd => fd = writeFd
  | .openNamespace _ pid kind => pid = child ∧ kind = .user
  | _ => False

/-- A read waits for something to read, or for the last write end to be closed. -/
inductive Answers : World → (c : Syscall) → c.Answer → World → Prop where
  | received {w : World} {rest : Bytes} {size : Nat}
      (bytes : { bytes : Bytes // bytes.length ≤ size }) (some : bytes.val ≠ [])
      (pipe : w.pipe = bytes.val ++ rest) :
      Answers w (.read (.syncPipe readFd) size) (.ok bytes)
        { w with pipe := rest, received := w.received ++ bytes.val }
  | endOfFile {w : World} (size : Nat) (empty : w.pipe = [])
      (closed : w.parentHoldsWriteEnd = false) (ended : w.helperEnded = true) :
      Answers w (.read (.syncPipe readFd) size) (.ok ⟨[], Nat.zero_le _⟩) w
  | readError (w : World) (size : Nat) (e : IoError) :
      Answers w (.read (.syncPipe readFd) size) (.error e) w
  | closed (w : World) :
      Answers w (.closeFd writeFd) () { w with parentHoldsWriteEnd := false }
  | opened (w : World) (path : Path) :
      Answers w (.openNamespace path child .user) (.ok (w.userns writeFd own inherited)) w
  | openError (w : World) (path : Path) (e : IoError) :
      Answers w (.openNamespace path child .user) (.error e) w
  | other (w : World) {c : Syscall} (r : c.Answer)
      (unconcerned : ¬Concerned readFd writeFd child c) : Answers w c r w

/-- What the waiting process sees: the helper runs until the answer. -/
def besideHelper : Kernel linux World :=
  fun w c r w' => ∃ w₁, Relation.ReflTransGen (HelperStep mapping readFd writeFd) w w₁ ∧
    Answers readFd writeFd child own inherited w₁ c r w'

end Steps

section Handshake

variable {mapping : IdMapping} {readFd writeFd : Fd} {w w' : World}

/-- What was received and what is in the pipe is what the helper wrote, which only
writes when its namespace is complete. -/
structure Consistent (mapping : IdMapping) (writeFd : Fd) (w : World) : Prop where
  bytes : w.received ++ w.pipe = (progressOf writeFd w.helperLog).written
  ready : (progressOf writeFd w.helperLog).written ≠ [] →
    (progressOf writeFd w.helperLog).Complete mapping

theorem after_written (progress : Progress) (ev : Event linux) :
    (progress.after writeFd ev).written =
      progress.written ++ writtenBy (.syncPipe writeFd) ev := by
  unfold Progress.after
  split
  · exact (List.append_nil _).symm
  · split
    · exact (List.append_nil _).symm
    · split <;> exact (List.append_nil _).symm
  · rfl

theorem after_ready {progress : Progress} {ev : Event linux}
    (horderly : Orderly mapping progress ev.1)
    (hready : progress.written ≠ [] → progress.Complete mapping)
    (hwritten : (progress.after writeFd ev).written ≠ []) :
    (progress.after writeFd ev).Complete mapping := by
  have hold : writtenBy (.syncPipe writeFd) ev = [] → progress.Complete mapping := by
    intro hnone
    rw [after_written, hnone, List.append_nil] at hwritten
    exact hready hwritten
  rw [after_written] at hwritten
  unfold Progress.after
  split
  · have hempty : progress.written = [] := horderly
    rw [hempty] at hwritten
    exact absurd rfl hwritten
  · have hempty : progress.written = [] := horderly
    rw [hempty] at hwritten
    exact absurd rfl hwritten
  · obtain ⟨c, r⟩ := ev
    have hcomplete : progress.Complete mapping := by
      cases c with
      | write file bytes =>
          cases file with
          | syncPipe fd => exact horderly
          | _ =>
              apply hold
              cases r <;> rfl
      | _ => exact hold rfl
    exact ⟨hcomplete.unshared, hcomplete.uidMap, hcomplete.gidMap⟩

theorem HelperStep.consistent (step : HelperStep mapping readFd writeFd w w')
    (h : Consistent mapping writeFd w) :
    Consistent mapping writeFd w' ∧ w'.received = w.received ∧
      w'.parentHoldsWriteEnd = w.parentHoldsWriteEnd := by
  cases step with
  | @call c r alive issue =>
      refine ⟨⟨?_, ?_⟩, rfl, rfl⟩
      · rw [progressOf_concat, after_written, ← h.bytes, List.append_assoc]
      · rw [progressOf_concat]
        exact after_ready (issue_orderly issue) h.ready
  | ended alive => exact ⟨⟨h.bytes, h.ready⟩, rfl, rfl⟩

theorem consistent_steps (steps : Relation.ReflTransGen (HelperStep mapping readFd writeFd) w w')
    (h : Consistent mapping writeFd w) :
    Consistent mapping writeFd w' ∧ w'.received = w.received ∧
      w'.parentHoldsWriteEnd = w.parentHoldsWriteEnd := by
  induction steps with
  | refl => exact ⟨h, rfl, rfl⟩
  | tail _ step ih =>
      obtain ⟨hmid, hreceived, hholds⟩ := ih
      obtain ⟨hnext, hreceived', hholds'⟩ := step.consistent hmid
      exact ⟨hnext, hreceived'.trans hreceived, hholds'.trans hholds⟩

variable {child : Pid} {own inherited : NsId}

/-- Wherever the helper is by now, the call is answered, or the helper has yet to
do what it is waited for. -/
def Progresses (mapping : IdMapping) (readFd writeFd : Fd) (child : Pid) (own inherited : NsId)
    (w : World) (c : Syscall) : Prop :=
  ∀ w', Relation.ReflTransGen (HelperStep mapping readFd writeFd) w w' →
    (∃ r w'', Answers readFd writeFd child own inherited w' c r w'') ∨
      w'.helperEnded = false ∧
        ¬(helperProcess mapping readFd writeFd).Issues (tracing linux) [] .sleep w'.helperLog

theorem progresses_closeFd (fd : Fd) :
    Progresses mapping readFd writeFd child own inherited w (.closeFd fd) := by
  intro w' _
  by_cases hfd : fd = writeFd
  · subst hfd
    exact .inl ⟨_, _, .closed w'⟩
  · have hother : ¬Concerned readFd writeFd child (.closeFd fd) := hfd
    exact .inl ⟨(), _, .other w' () hother⟩

theorem progresses_read (hclosed : w.parentHoldsWriteEnd = false) (hreceived : w.received = [])
    (h : Consistent mapping writeFd w) :
    Progresses mapping readFd writeFd child own inherited w (.read (.syncPipe readFd) 1) := by
  intro w' steps
  obtain ⟨h', hreceived', hholds'⟩ := consistent_steps steps h
  cases hpipe : w'.pipe with
  | cons b rest =>
      have hsplit : w'.pipe = [b] ++ rest := hpipe
      exact .inl ⟨_, _, .received ⟨[b], Nat.le_refl 1⟩ (by simp) hsplit⟩
  | nil =>
      cases hended : w'.helperEnded with
      | true => exact .inl ⟨_, _, .endOfFile 1 hpipe (hholds'.trans hclosed) hended⟩
      | false =>
          refine .inr ⟨rfl, fun issue => ?_⟩
          have hwritten := issue_orderly issue
          have hnone : (progressOf writeFd w'.helperLog).written = [] := by
            rw [← h'.bytes, hreceived', hreceived, hpipe]
            rfl
          exact hwritten hnone

theorem Answers.consistent {c : Syscall} {r : c.Answer}
    (answer : Answers readFd writeFd child own inherited w c r w')
    (h : Consistent mapping writeFd w) : Consistent mapping writeFd w' := by
  cases answer with
  | received bytes some pipe =>
      refine ⟨?_, h.ready⟩
      rw [← h.bytes, pipe, List.append_assoc]
  | closed => exact ⟨h.bytes, h.ready⟩
  | _ => exact h

/-- The process that waits for the helper gets a namespace that the helper made and
finished, or an error; and it does not wait for ever for a helper that has ended, or
that has nothing left to do. -/
theorem awaitHelper_wp :
    (awaitHelper child readFd writeFd).wp
      (besideHelper mapping readFd writeFd child own inherited)
      (Progresses mapping readFd writeFd child own inherited)
      (fun o w => ∀ helper, o = .value helper → helper.pid = child ∧ helper.usernsFd = own ∧
        (progressOf writeFd w.helperLog).Complete mapping) World.forked := by
  have hforked : Consistent mapping writeFd World.forked :=
    ⟨rfl, fun h => absurd rfl h⟩
  refine ⟨progresses_closeFd writeFd, ?_⟩
  rintro ⟨⟩ w ⟨w₁, steps, answer⟩
  obtain ⟨hw, hreceived, hclosed⟩ : Consistent mapping writeFd w ∧ w.received = [] ∧
      w.parentHoldsWriteEnd = false := by
    obtain ⟨h₁, hreceived, -⟩ := consistent_steps steps hforked
    cases answer with
    | closed => exact ⟨⟨h₁.bytes, h₁.ready⟩, hreceived, rfl⟩
    | other r unconcerned => exact absurd rfl unconcerned
  refine ⟨progresses_read hclosed hreceived hw, ?_⟩
  rintro (e | buf) w ⟨w₁, steps, answer⟩
  · rintro _ ⟨⟩
  show Program.wp _ _ (if buf.val.length ≠ 1 then _ else _) _ _
  split
  · rintro _ ⟨⟩
  next hlength =>
  obtain ⟨hw, hreceived⟩ : Consistent mapping writeFd w ∧ w.received ≠ [] := by
    obtain ⟨h₁, -, -⟩ := consistent_steps steps hw
    refine ⟨answer.consistent h₁, ?_⟩
    cases answer with
    | received bytes some pipe => exact List.append_ne_nil_of_right_ne_nil _ some
    | endOfFile => exact absurd (by decide) hlength
    | other r unconcerned => exact absurd rfl unconcerned
  refine ⟨progresses_closeFd readFd, ?_⟩
  rintro ⟨⟩ w' ⟨w₁, steps, answer⟩
  obtain ⟨hw, hreceived⟩ : Consistent mapping writeFd w' ∧ w'.received ≠ [] := by
    obtain ⟨h₁, hsame, -⟩ := consistent_steps steps hw
    refine ⟨answer.consistent h₁, ?_⟩
    rw [← hsame] at hreceived
    cases answer <;> exact hreceived
  refine ⟨fun w' _ => .inl ⟨_, _, .opened w' _⟩, ?_⟩
  rintro (e | ns) w ⟨w₁, steps, answer⟩
  · rintro _ ⟨⟩
  rintro _ ⟨⟩
  obtain ⟨h₁, hsame, -⟩ := consistent_steps steps hw
  have hcomplete : (progressOf writeFd w₁.helperLog).Complete mapping := by
    apply h₁.ready
    rw [← h₁.bytes, hsame]
    exact List.append_ne_nil_of_left_ne_nil hreceived _
  cases answer with
  | opened => exact ⟨rfl, if_pos hcomplete.unshared, hcomplete⟩
  | other r unconcerned => exact absurd ⟨rfl, rfl⟩ unconcerned

/-- In every interleaving with its helper, the waiting process gets a namespace that
the helper made and finished, or an error; and it does not wait for ever for a helper
that has ended, or that has nothing left to do. -/
theorem awaitHelper_handshake :
    (∀ helper w, (awaitHelper child readFd writeFd).Runs
        (besideHelper mapping readFd writeFd child own inherited) World.forked
        (.value helper) w →
      helper.pid = child ∧ helper.usernsFd = own ∧
        (progressOf writeFd w.helperLog).Complete mapping) ∧
      ∀ c w, (awaitHelper child readFd writeFd).Issues
          (besideHelper mapping readFd writeFd child own inherited) World.forked c w →
        Progresses mapping readFd writeFd child own inherited w c := by
  have hwp : (awaitHelper child readFd writeFd).wp
      (besideHelper mapping readFd writeFd child own inherited) _ _ World.forked := awaitHelper_wp
  exact ⟨fun helper w run => run.of_wp hwp helper rfl, fun c w issue => issue.of_wp hwp⟩

end Handshake

section Example

variable (mapping : IdMapping)

/-- The helper while the other process waits, with nothing read yet. -/
def awaited (log : Log) (pipe : Bytes) : World := ⟨log, false, false, [], pipe⟩

theorem awaited_call {log : Log} {pipe : Bytes} (c : Syscall) (r : c.Answer)
    (steps : Relation.ReflTransGen (HelperStep mapping 3 4) (awaited [] []) (awaited log pipe))
    (issue : (helperProcess mapping 3 4).Issues (tracing linux) [] c log) :
    Relation.ReflTransGen (HelperStep mapping 3 4) (awaited [] [])
      (awaited (log ++ [⟨c, r⟩]) (pipe ++ writtenBy (.syncPipe 4) ⟨c, r⟩)) :=
  .tail steps (.call r rfl issue)

/-- The helper can come to where it has said that it is ready. -/
theorem exists_ready :
    ∃ log, Relation.ReflTransGen (HelperStep mapping 3 4) (awaited [] [])
      (awaited log (ascii "R")) := by
  have hclosed := awaited_call mapping (.closeFd 3) () .refl (.here [])
  have hunshared := awaited_call mapping .unshareUser (.ok ()) hclosed
    (.later (r := ()) rfl (.here _))
  have hdenied := awaited_call mapping (.writePath (ascii "/proc/self/setgroups") (ascii "deny"))
    (.ok ()) hunshared
    (.later (r := ()) rfl (.later (r := (.ok () : Except Errno Unit)) rfl (.here _)))
  have huid := awaited_call mapping (.writePath (ascii "/proc/self/uid_map")
      (idMap mapping.innerUid mapping.outerUid)) (.ok ()) hdenied
    (.later (r := ()) rfl (.later (r := (.ok () : Except Errno Unit)) rfl
      (.later (r := (.ok () : Except IoError Unit)) rfl (.here _))))
  have hgid := awaited_call mapping (.writePath (ascii "/proc/self/gid_map")
      (idMap mapping.innerGid mapping.outerGid)) (.ok ()) huid
    (.later (r := ()) rfl (.later (r := (.ok () : Except Errno Unit)) rfl
      (.later (r := (.ok () : Except IoError Unit)) rfl
        (.later (r := (.ok () : Except IoError Unit)) rfl (.here _)))))
  have hready := awaited_call mapping (.write (.syncPipe 4) (ascii "R")) (.ok ⟨1, by decide⟩) hgid
    (.later (r := ()) rfl (.later (r := (.ok () : Except Errno Unit)) rfl
      (.later (r := (.ok () : Except IoError Unit)) rfl
        (.later (r := (.ok () : Except IoError Unit)) rfl
          (.later (r := (.ok () : Except IoError Unit)) rfl (.body (.here _)))))))
  exact ⟨_, hready⟩

/-- The waiting process can get a namespace. -/
theorem exists_handshake :
    ∃ helper w, (awaitHelper somePid 3 4).Runs (besideHelper mapping 3 4 somePid 7 1)
      World.forked (.value helper) w := by
  obtain ⟨log, steps⟩ := exists_ready mapping
  have hclosed : besideHelper mapping 3 4 somePid 7 1 World.forked (.closeFd 4) ()
      (awaited [] []) := ⟨World.forked, .refl, .closed _⟩
  have hread : besideHelper mapping 3 4 somePid 7 1 (awaited [] []) (.read (.syncPipe 3) 1)
      (.ok ⟨ascii "R", by decide⟩) ⟨log, false, false, ascii "R", []⟩ :=
    ⟨_, steps, .received ⟨ascii "R", by decide⟩ (by decide) (List.append_nil _).symm⟩
  have hother : ¬Concerned 3 4 somePid (.closeFd 3) := by
    have hne : (3 : Nat) ≠ 4 := by decide
    exact hne
  have hdropped : besideHelper mapping 3 4 somePid 7 1 ⟨log, false, false, ascii "R", []⟩
      (.closeFd 3) () ⟨log, false, false, ascii "R", []⟩ :=
    ⟨_, .refl, .other _ () hother⟩
  have hopened : besideHelper mapping 3 4 somePid 7 1 ⟨log, false, false, ascii "R", []⟩
      (.openNamespace (ascii "/proc") somePid .user)
      (.ok (World.userns 4 7 1 ⟨log, false, false, ascii "R", []⟩))
      ⟨log, false, false, ascii "R", []⟩ := ⟨_, .refl, .opened _ _⟩
  exact ⟨_, _, .ask hclosed (.ask hread (.ask hdropped (.ask hopened (.stop _ _))))⟩

end Example

end Cntr.HelperHandshake
