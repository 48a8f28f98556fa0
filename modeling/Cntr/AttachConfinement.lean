import Cntr.EnteredNamespaces

namespace Cntr.AttachConfinement

open Cntr.ByteText
open Cntr.CallTree
open Cntr.SystemCalls
open Cntr.AttachChild
open Cntr.AttachParent
open Cntr.CallsMade
open Cntr.CommandExecution
open Cntr.ConfinementSteps
open Cntr.ContainerSetup (ProcStatus)
open Cntr.EnteredNamespaces
open Cntr.IdmapHelperProcess
open Cntr.NamespaceFiles

/-- The steps that `attach` takes before it tells the parent that it is ready. -/
def attachSteps (nss : Namespaces) (processStatus : ProcStatus) (ourMountNs : NsId) :
    List Step :=
  [.leave .mount, .enter .mount (nss.target .mount), .enter .mount ourMountNs] ++
    namespaceSteps nss ++ identitySteps processStatus (nss.enters .user)

def AttachGuard (nss : Namespaces) (processStatus : ProcStatus) (log : Log) : Syscall → Prop
  | .exec _ _ _ => ∃ own rest, (rest = [] ∨ ∃ dir, rest = [.chdir dir]) ∧
      Reached false (attachSteps nss processStatus own ++ .ready :: rest)
        processStatus.lsmProfile log
  | .sendmsg _ _ => ∃ own, Reached false (attachSteps nss processStatus own) none log
  | _ => True

theorem attachGuard_of_not_announces {nss : Namespaces} {processStatus : ProcStatus}
    (log : Log) (c : Syscall) (h : ¬Announces c) : AttachGuard nss processStatus log c := by
  cases c <;> first | exact (h trivial).elim | trivial

theorem attachGuard_allows {nss : Namespaces} {processStatus : ProcStatus} :
    Allows false (Unfailed false (AttachGuard nss processStatus)) :=
  fun log c hcalm h => ⟨hcalm, attachGuard_of_not_announces log c h⟩

section AttachChild

variable {nss : Namespaces} {processStatus : ProcStatus} {targetPid : Pid} {supported : List Bytes}
  {log : Log}

theorem attachOpenOther_wp
    (hsupported : ∀ kind : Kind, kind.name ∈ supported ↔ nss.supported kind = true)
    {opened : List Namespace} {kind : Kind} (h : Reached false [] none log) :
    (AttachChild.openOther targetPid supported opened kind).wp (namespaced nss targetPid)
      (Unfailed false (AttachGuard nss processStatus))
      (Reaches false fun opened' log' =>
        opened' = opened ++ (if nss.enters kind then [⟨kind, nss.target kind⟩] else []) ∧
          Reached false [] none log') log := by
  rw [AttachChild.openOther]
  refine reaches_mono (openIfOther_wp attachGuard_allows (hsupported kind) h opened
    (fun ns => opened ++ [ns]) AttachError.namespaceFailed) ?_
  rintro _ log' ⟨rfl, h'⟩
  refine ⟨?_, h'⟩
  cases nss.enters kind with
  | true => rfl
  | false => exact (List.append_nil opened).symm

theorem attachOpenOthers_wp
    (hsupported : ∀ kind : Kind, kind.name ∈ supported ↔ nss.supported kind = true)
    {opened : List Namespace} {kinds : List Kind} (h : Reached false [] none log) :
    (AttachChild.openOthers targetPid supported opened kinds).wp (namespaced nss targetPid)
      (Unfailed false (AttachGuard nss processStatus))
      (Reaches false fun opened' log' =>
        opened' = opened ++ nss.opened kinds ∧ Reached false [] none log') log := by
  induction kinds generalizing opened log with
  | nil => exact ⟨(List.append_nil _).symm, h⟩
  | cons kind kinds ih =>
      refine reaches_bind (attachOpenOther_wp hsupported h) ?_
      rintro _ log₁ ⟨rfl, h₁⟩
      refine reaches_mono (ih h₁) ?_
      rintro _ log₂ ⟨rfl, h₂⟩
      exact ⟨by rw [opened_cons, List.append_assoc], h₂⟩

theorem openOwnMount_wp {ownPid : Pid} {taken : List Step} (h : Reached false taken none log) :
    (openKind .mount ownPid).wp (namespaced nss targetPid)
      (Unfailed false (AttachGuard nss processStatus))
      (Reaches false fun ns log' => ns.kind = .mount ∧ Reached false taken none log') log := by
  refine reaches_bind (reaches_quiet attachGuard_allows
    (quiet_of_still getPath_still) h) fun procfsPath log₁ h₁ => ?_
  exact reaches_check attachGuard_allows (.openNamespace procfsPath ownPid .mount)
    (g := id) trivial h₁ fun file log₂ h₂ => ⟨rfl, h₂⟩

theorem captureAndAttach_wp {ourMountNs : Namespace} {baseDir : Path} {taken : List Step}
    (h : Reached false taken none log) :
    (AttachChild.captureAndAttachContainerTrees targetPid ourMountNs baseDir).wp
      (namespaced nss targetPid) (Unfailed false (AttachGuard nss processStatus))
      (Reaches false fun _ log' => Reached false
        (taken ++ [.enter .mount (nss.target .mount), enterStep ourMountNs]) none log') log := by
  refine reaches_bind (reaches_mapError (openKind_wp attachGuard_allows h)) ?_
  rintro containerMountNs log₁ ⟨rfl, h₁⟩
  refine reaches_bind (reaches_mapError (apply_wp attachGuard_allows _ h₁)) ?_
  intro _ log₂ h₂
  refine reaches_check attachGuard_allows .readContainerRoot (g := id) trivial h₂
    fun dir log₃ h₃ => ?_
  refine reaches_bind (reaches_quiet attachGuard_allows (captureTrees_quiet _) h₃) ?_
  intro capturedTrees log₄ h₄
  refine reaches_bind (reaches_mapError (apply_wp attachGuard_allows ourMountNs h₄)) ?_
  intro _ log₅ h₅
  rw [List.append_assoc, List.singleton_append] at h₅
  exact reaches_quiet attachGuard_allows (.forEach (attachCaptured_quiet baseDir) _) h₅

theorem assembleHierarchy_wp (options : ChildOptions) (baseDir : Path)
    (h : Reached false [] none log) :
    (AttachChild.assembleHierarchy options baseDir).wp
      (namespaced nss options.processStatus.globalPid)
      (Unfailed false (AttachGuard nss processStatus))
      (Reaches false fun _ log' => ∃ own, Reached false
        [.leave .mount, .enter .mount (nss.target .mount), .enter .mount own] none log') log := by
  refine reaches_check attachGuard_allows (.createDirAll baseDir) (g := id) trivial h
    fun _ log₁ h₁ => ?_
  refine reaches_check attachGuard_allows
    (.openFile (procRootPath options.processStatus.globalPid) .read) (g := id) (by simp [Quiet])
    h₁ fun _ log₂ h₂ => ?_
  refine reaches_step .unshareMount (.leave .mount) (g := id) ⟨h₂.calm, trivial⟩ h₂ ?_ (fun _ => id)
    (fun _ _ => rfl) fun log₃ h₃ => ?_
  · rintro (e | _) ha
    · cases ha
    · exact ⟨rfl, id⟩
  refine reaches_check attachGuard_allows .makeMountsPrivate (g := id) trivial h₃
    fun _ log₄ h₄ => ?_
  refine reaches_bind (reaches_quiet attachGuard_allows (idmapMounts_quiet _ _) h₄) ?_
  intro _ log₅ h₅
  refine reaches_bind (reaches_quiet attachGuard_allows
    ((Program.within_call _).mpr trivial) h₅) fun ownPid log₆ h₆ => ?_
  refine reaches_bind (reaches_mapError (openOwnMount_wp h₆)) ?_
  rintro ourMountNs log₇ ⟨hkind, h₇⟩
  refine reaches_check attachGuard_allows (.mountTmpfs baseDir) (g := id) trivial h₇
    fun _ log₈ h₈ => ?_
  refine reaches_bind (reaches_quiet attachGuard_allows
    (quiet_of_still (setupContainerTimezone_still baseDir)) h₈) fun localtimeCopy log₉ h₉ => ?_
  refine reaches_bind (captureAndAttach_wp h₉) fun _ log' h' => ?_
  rw [enterStep, hkind] at h'
  exact ⟨ourMountNs.file, h'⟩

/-- Going to the base directory may fail; then there is one step less. -/
theorem chdir_wp {baseDir : Path} {taken : List Step} {G : Log → Syscall → Prop} {α : Type}
    {k : Except IoError Unit → Sys AttachError α} {R : α → Log → Prop}
    (hG : G log (.chdir baseDir)) (h : Reached false taken none log)
    (hk : ∀ r rest log', (rest = [] ∨ ∃ dir, rest = [.chdir dir]) →
      Reached false (taken ++ rest) none log' →
        (k r).wp (namespaced nss targetPid) G (Reaches false R) log') :
    ((sys (.chdir baseDir)).bind k).wp (namespaced nss targetPid) G (Reaches false R) log := by
  rw [Program.wp_call_recording]
  refine ⟨hG, fun r _ => hk r (stepOf ⟨.chdir baseDir, r⟩).toList _ ?_ ?_⟩
  · cases r with
    | error e => exact .inl rfl
    | ok _ => exact .inr ⟨baseDir, rfl⟩
  · refine h.snoc _ ?_ id fun _ => rfl
    cases r with
    | error e => exact Bool.false_ne_true
    | ok _ => exact id

theorem inheritProfile_wp' {taken : List Step} {G : Log → Syscall → Prop}
    (hG : Allows false G) (h : Reached false taken none log) :
    (AttachChild.inheritProfile processStatus.lsmProfile).wp (namespaced nss targetPid) G
      (Reaches false fun _ log' => Reached false taken processStatus.lsmProfile log') log := by
  cases hprofile : processStatus.lsmProfile with
  | none => exact h
  | some profile => exact reaches_mapError (inheritProfile_wp hG h)

theorem enterAndExecute_wp (options : ChildOptions) (baseDir : Path) (cmd : Cmd) {own : NsId}
    (h : Reached false
      [.leave .mount, .enter .mount (nss.target .mount), .enter .mount own] none log) :
    (AttachChild.enterAndExecute options baseDir cmd (nss.opened ContainerSetup.otherKinds)).wp
      (namespaced nss options.processStatus.globalPid)
      (Unfailed false (AttachGuard nss options.processStatus))
      (Reaches false fun _ _ => False) log := by
  refine reaches_bind (reaches_mapError (applyAll_wp attachGuard_allows _ h)) ?_
  intro _ log₁ h₁
  refine reaches_bind (reaches_quiet attachGuard_allows setupPty_quiet h₁) ?_
  intro ptyMaster log₂ h₂
  refine reaches_bind (reaches_mapError
    (applySecurityContext_wp attachGuard_allows _ _ h₂)) fun _ log₃ h₃ => ?_
  rw [any_user_opened] at h₃
  have hready : Reached false (attachSteps nss options.processStatus own) none log₃ := h₃
  refine reaches_bind (reaches_mapError (reaches_lastStep
    (.sendmsg (ascii "R") ptyMaster.toList) .ready (g := id) ⟨h₃.calm, own, hready⟩ hready ?_
    (fun _ => id) fun _ _ => rfl)) fun _ log₄ h₄ => ?_
  · rintro (e | _) ha
    · cases ha
    · exact ⟨rfl, id⟩
  refine chdir_wp ⟨h₄.calm, trivial⟩ h₄ fun _ rest log₅ hrest h₅ => ?_
  refine reaches_bind (inheritProfile_wp' attachGuard_allows h₅) fun _ log₆ h₆ => ?_
  apply reaches_mapError
  refine reaches_bind (reaches_quiet attachGuard_allows
    ((Program.within_call _).mpr trivial) h₆) fun ownPath log₇ h₇ => ?_
  rw [List.append_assoc, List.singleton_append] at h₇
  exact execute_wp (fun _ _ _ => ⟨h₇.calm, own, rest, hrest, h₇⟩) h₇

theorem run_wp (options : ChildOptions) (h : Reached false [] none log) :
    (AttachChild.run options).wp (namespaced nss options.processStatus.globalPid)
      (Unfailed false (AttachGuard nss options.processStatus))
      (Reaches false fun _ _ => False) log := by
  refine reaches_bind (reaches_quiet attachGuard_allows
    ((Program.within_call _).mpr trivial) h) fun pid log₁ h₁ => ?_
  refine reaches_bind (reaches_quiet attachGuard_allows
    (quiet_of_still (moveTo_still _ _)).mapError h₁) fun _ log₂ h₂ => ?_
  refine reaches_bind (reaches_quiet attachGuard_allows
    (quiet_of_still (cmdNew_still _ _ _ _)).mapError h₂) fun cmd log₃ h₃ => ?_
  refine reaches_bind (reaches_mapError
    (supportedNamespaces_wp attachGuard_allows h₃)) ?_
  rintro supported log₄ ⟨hsupported, h₄⟩
  by_cases hmount : Kind.mount.name ∈ supported
  · rw [if_neg (not_not_intro hmount)]
    refine reaches_bind (attachOpenOthers_wp hsupported h₄) ?_
    rintro otherNamespaces log₅ ⟨rfl, h₅⟩
    refine reaches_bind (reaches_quiet attachGuard_allows
      (quiet_of_still getBaseDir_still) h₅) fun baseDir log₆ h₆ => ?_
    refine reaches_bind (assembleHierarchy_wp options baseDir h₆) ?_
    rintro localtimeCopy log₇ ⟨own, h₇⟩
    exact enterAndExecute_wp options baseDir _ h₇
  · rw [if_pos hmount]
    exact h₄.reaches fun _ ha => by cases ha

end AttachChild

section Branches

variable {nss : Namespaces} {processStatus : ProcStatus} {log : Log}

theorem attachChildBranch_wp (nss : Namespaces) (options : ChildOptions)
    (h : Reached false [] none log) :
    (AttachParent.childBranch options).wp (namespaced nss options.processStatus.globalPid)
      (Unfailed false (AttachGuard nss options.processStatus)) (Settled false) log := by
  rw [AttachParent.childBranch, Program.bind_eq, Program.wp_call_recording]
  exact ⟨⟨h.calm, trivial⟩, fun _ _ => settled_of_reaches (run_wp options (h.quiet _ _ trivial))⟩

theorem newHelper_wp (mapping : IdMapping) (h : Reached false [] none log) :
    (IdmapHelper.new mapping).wp (namespaced nss processStatus.globalPid)
      (AttachGuard nss processStatus)
      (fun o log' => ∀ helper, o = .value helper → Reached false [] none log') log := by
  have hend : ∀ {α : Type} (o : Outcome Halt IdmapError α) (log' : Log),
      Reaches false (fun _ log' => Reached false [] none log') o log' →
      ∀ a, o = .value a → Reached false [] none log' := by
    rintro α o log' ho a rfl
    exact ho
  rw [IdmapHelper.new, Program.bind_eq, Program.wp_call_recording]
  refine ⟨trivial, fun pipe _ => ?_⟩
  have h₁ := h.quiet .pipe pipe trivial
  rcases pipe with e | ⟨readFd, writeFd⟩
  · intro helper hvalue
    cases hvalue
  simp only [Program.ofExcept, Program.bind_eq, Program.done_bind, Program.wp_call_recording]
  refine ⟨trivial, fun fork _ => ?_⟩
  have h₂ := h₁.quiet .fork fork trivial
  rcases fork with e | (_ | child)
  · intro helper hvalue
    cases hvalue
  · have hnot : ∀ c, HelperCall c → ¬Announces c := by
      rintro c (hquiet | rfl)
      · exact not_announces_of_quiet hquiet
      · exact id
    change ((helperProcess mapping readFd writeFd).bind _).wp _ _ _ _
    refine Program.wp_seq
      (silent_wp attachGuard_of_not_announces
        ((helperProcess_within trivial mapping readFd writeFd).mono hnot fun _ => id))
      fun o log' _ => ?_
    rcases o with never | e | h
    · exact never.elim
    · intro helper hvalue
      cases hvalue
    · intro helper hvalue
      cases hvalue
  · exact Program.wp_post (reaches_quiet (fun log c _ => attachGuard_of_not_announces log c)
      (awaitHelper_quiet child readFd writeFd) h₂) hend

theorem createHelper_wp (user : Option AttachParent.User) (h : Reached false [] none log) :
    (AttachParent.createHelper user).wp (namespaced nss processStatus.globalPid)
      (AttachGuard nss processStatus)
      (fun o log' => ∀ helper, o = .value helper → Reached false [] none log') log := by
  cases user with
  | none =>
      intro helper _
      exact h
  | some user =>
      rw [AttachParent.createHelper, Program.bind_eq, Program.wp_call_recording]
      refine ⟨trivial, fun currentUid _ => ?_⟩
      have h₁ := h.quiet .getuid currentUid trivial
      rw [Program.bind_eq, Program.wp_call_recording]
      refine ⟨trivial, fun currentGid _ => ?_⟩
      have h₂ := h₁.quiet .getgid currentGid trivial
      rw [Program.bind_eq, Program.wp_bind, Program.wp_mapError]
      refine Program.wp_post (newHelper_wp _ h₂) fun o log' ho => ?_
      rcases o with helper | e | halt
      · intro _ _
        exact ho helper rfl
      · intro _ hvalue
        cases hvalue
      · intro _ hvalue
        cases hvalue

theorem attachWithHelper_wp (nss : Namespaces) (options : ChildOptions)
    (h : Reached false [] none log) :
    (AttachParent.attachWithHelper options).wp
      (namespaced nss options.processStatus.globalPid)
      (AttachGuard nss options.processStatus) (fun _ _ => True) log := by
  have hpair : (ReadySocket.socketPair.mapError AttachError.ipc).Within Quiet fun _ => True :=
    Program.Within.mapError ⟨trivial, fun r => (Program.within_ofExcept _ r).mpr trivial⟩
  refine quiet_first_wp attachGuard_of_not_announces hpair h fun _ log₁ h₁ => ?_
  refine fork_wp attachGuard_of_not_announces h₁ fun side log₂ h₂ => ?_
  cases side with
  | child =>
      exact Program.wp_mono (fun _ _ h => h.2) _ (fun _ _ _ => trivial)
        (attachChildBranch_wp nss options h₂)
  | parentOf childPid =>
      exact silent_wp attachGuard_of_not_announces ((attachParentBranch_supervises
        childPid).mono (fun _ => not_announces_of_supervises) fun _ _ => trivial)

theorem attach_wp (nss : Namespaces) (opts : AttachOptions) :
    (AttachParent.attach opts processStatus).wp (namespaced nss processStatus.globalPid)
      (AttachGuard nss processStatus) (fun _ _ => True) [] := by
  rw [AttachParent.attach, Program.bind_eq]
  refine Program.wp_seq (createHelper_wp opts.effectiveUser reached_nil) fun o log₁ ho => ?_
  rcases o with helper | e | halt
  · have hattach := attachWithHelper_wp nss
      (AttachParent.childOptions opts processStatus helper) (ho helper rfl)
    rw [Outcome.andThen_value, Program.bind_eq, Program.wp_bind, Program.wp_attempt]
    refine Program.wp_post hattach fun o log₂ _ => ?_
    have hdrop : ∀ res : Except AttachError Empty,
        ((AttachParent.dropHelper helper).bind fun _ => Program.ofExcept id res).Within
          (fun c => ¬Announces c) fun _ => True := by
      intro res
      have hquiet : (AttachParent.dropHelper helper).Within Quiet fun _ => True :=
        quiet_of_still (dropHelper_still helper)
      exact (hquiet.mono (fun _ => not_announces_of_quiet) fun _ => id).bind fun _ =>
        (Program.within_ofExcept _ res).mpr trivial
    rcases o with never | e | halt
    · exact nomatch never
    · exact silent_wp attachGuard_of_not_announces (hdrop (.error e))
    · trivial
  · trivial
  · trivial

end Branches

end Cntr.AttachConfinement
