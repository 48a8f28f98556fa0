import Cntr.ApparmorProfile
import Mathlib.Data.List.TakeWhile

namespace Cntr.ProfileLabels

open Cntr.ByteText
open Cntr.CallTree
open Cntr.SystemCalls
open Cntr.ApparmorProfile
open Cntr.TextSplitting
open Cntr.WhiteSpaceText

/-- The name of a profile as the kernel may report it. -/
structure ProfileName where
  text : Bytes
  ne_nil : text ≠ []
  oneLine : newline ∉ text
  utf8 : isUtf8 text = true

structure ModeWord where
  text : Bytes
  utf8 : isUtf8 text = true

inductive Confinement where
  | unconfined
  | confined (name : ProfileName) (mode : ModeWord)

namespace Confinement

def profile : Confinement → Bytes
  | unconfined => ascii "unconfined"
  | confined name _ => name.text

def text : Confinement → Bytes
  | unconfined => ascii "unconfined"
  | confined name mode => name.text ++ ascii " (" ++ mode.text ++ ascii ")"

/-- The content of the attribute, with or without a newline at its end. -/
def attr (confinement : Confinement) (newlineAtEnd : Bool) : Bytes :=
  confinement.text ++ if newlineAtEnd then [newline] else []

theorem isUtf8_attr (confinement : Confinement) (newlineAtEnd : Bool) :
    isUtf8 (confinement.attr newlineAtEnd) = true := by
  have htext : isUtf8 confinement.text = true := by
    cases confinement with
    | unconfined => exact isUtf8_of_all (by decide)
    | confined name mode =>
        have hopen : isUtf8 (ascii " (") = true := isUtf8_of_all (by decide)
        have hclose : isUtf8 (ascii ")") = true := isUtf8_of_all (by decide)
        exact isUtf8_append (isUtf8_append (isUtf8_append name.utf8 hopen) mode.utf8) hclose
  apply isUtf8_append htext
  cases newlineAtEnd with
  | false => exact isUtf8_of_ascii (by simp)
  | true => exact isUtf8_of_all (by decide)

theorem text_last (confinement : Confinement) :
    ∃ start b, confinement.text = start ++ [b] ∧ Graphic b := by
  cases confinement with
  | unconfined => exact ⟨ascii "unconfine", 100, by decide, by decide, by decide⟩
  | confined name mode =>
      exact ⟨name.text ++ ascii " (" ++ mode.text, 41, rfl, by decide, by decide⟩

theorem trimEnd_attr (confinement : Confinement) (newlineAtEnd : Bool) :
    trimEnd (confinement.attr newlineAtEnd) = confinement.text := by
  obtain ⟨start, b, htext, hb⟩ := confinement.text_last
  have htrim : trimEnd confinement.text = confinement.text := by
    rw [htext]
    exact trimEnd_graphic start hb
  cases newlineAtEnd with
  | false =>
      rw [attr, if_neg (by decide), List.append_nil]
      exact htrim
  | true =>
      rw [attr, if_pos rfl, trimEnd_newline]
      exact htrim

end Confinement

def firstWord (text : Bytes) : Bytes := text.takeWhile (· != space)

theorem firstWord_append (text rest : Bytes) :
    firstWord (text ++ space :: rest) = firstWord text := by
  induction text with
  | nil => rfl
  | cons b text ih =>
      rw [firstWord] at ih ⊢
      rw [firstWord, List.cons_append, List.takeWhile_cons, List.takeWhile_cons, ih]
      rfl

theorem firstWord_eq_iff (text : Bytes) : firstWord text = text ↔ space ∉ text := by
  rw [firstWord, List.takeWhile_eq_self_iff]
  constructor
  · intro hall hmem
    exact absurd (hall space hmem) (by decide)
  · intro hnot b hb
    simp only [bne_iff_ne, ne_eq]
    rintro rfl
    exact hnot hb

/-- A text goes on after its first word with a space. -/
theorem firstWord_isPrefix (text : Bytes) :
    firstWord text = text ∨ firstWord text ++ [space] <+: text := by
  have hwhole : firstWord text ++ text.dropWhile (· != space) = text :=
    List.takeWhile_append_dropWhile
  cases hrest : text.dropWhile (· != space) with
  | nil =>
      rw [hrest, List.append_nil] at hwhole
      exact .inl hwhole
  | cons b rest =>
      have hb : b = space := by
        have hhead := List.head_dropWhile_not (p := (· != space)) (l := text)
          (by rw [hrest]; exact List.cons_ne_nil b rest)
        simpa [hrest] using hhead
      refine .inr ⟨rest, ?_⟩
      rw [hrest, hb] at hwhole
      rw [List.append_assoc]
      exact hwhole

theorem firstWord_of_isPrefix {name text : Bytes} (hname : space ∉ name)
    (h : name ++ [space] <+: text) : firstWord text = name := by
  obtain ⟨rest, rfl⟩ := h
  rw [List.append_assoc, List.singleton_append, firstWord_append]
  exact (firstWord_eq_iff name).mpr hname

theorem labelOf_attr (confinement : Confinement) (newlineAtEnd : Bool) :
    labelOf (confinement.attr newlineAtEnd) = firstWord confinement.profile := by
  rw [labelOf, confinement.trimEnd_attr, splitn_first]
  cases confinement with
  | unconfined => rfl
  | confined name mode =>
      have htext : (Confinement.confined name mode).text =
          name.text ++ space :: (ascii "(" ++ mode.text ++ ascii ")") := by
        simp only [Confinement.text, List.append_assoc]
        rfl
      rw [htext]
      exact firstWord_append _ _

section Reading

variable {answer : (c : Syscall) → c.Answer}

/-- The path of procfs that the program works with. -/
def procfsPath (answer : (c : Syscall) → c.Answer) : Path :=
  Procfs.pathFrom (answer (.getenv (ascii "CNTR_PROC")))

theorem readApparmorLabel_yields {path : Path} {attr : Bytes}
    (hopen : answer (.openFile path .read) = .ok ())
    (hread : answer (.readToEnd (.atPath path .read)) = .ok attr) (hutf8 : isUtf8 attr = true) :
    (readApparmorLabel path).Yields (S := linux) answer (.value (labelOf attr)) := by
  refine .reply (S := linux) hopen (.reply (S := linux) hread ?_)
  rw [decodeText_ok hutf8]
  exact .stop _

/-- AppArmor is enabled, and these are the attributes of the target and of cntr. -/
structure Reports (answer : (c : Syscall) → c.Answer) (pid : Pid) (target own : Bytes) :
    Prop where
  enabledOpens : answer (.openFile enabledPath .read) = .ok ()
  enabled : answer (.readToEnd (.atPath enabledPath .read)) = .ok (ascii "Y\n")
  opens : ∀ process, answer (.openFile (attributePath (procfsPath answer) process) .read) = .ok ()
  target : answer (.readToEnd (.atPath (attributePath (procfsPath answer) (some pid)) .read)) =
    .ok target
  own : answer (.readToEnd (.atPath (attributePath (procfsPath answer) none) .read)) = .ok own

theorem isApparmorEnabled_yields {pid : Pid} {target own : Bytes}
    (h : Reports answer pid target own) :
    isApparmorEnabled.Yields (S := linux) answer (.value true) := by
  refine .reply (S := linux) h.enabledOpens (.reply (S := linux) h.enabled ?_)
  have hutf8 : isUtf8 (ascii "Y\n") = true := isUtf8_of_all (by decide)
  rw [decodeText_ok hutf8]
  exact .stop _

theorem apparmorProfilePath_yields (process : Option Pid) :
    (apparmorProfilePath process).Yields (S := linux) answer
      (.value (attributePath (procfsPath answer) process)) :=
  (Procfs.getPath_yields answer).bind (.stop _)

/-- What `read_profile` makes of the two labels. -/
def inherited (answer : (c : Syscall) → c.Answer) (target own : Bytes) : Option LSMProfile :=
  if labelOf target = labelOf own then none
  else some ⟨labelOf target, attributePath (procfsPath answer) none⟩

theorem readProfile_yields {pid : Pid} {target own : Bytes} (h : Reports answer pid target own)
    (htarget : isUtf8 target = true) (hown : isUtf8 own = true) :
    (readProfile pid .auto).Yields (S := linux) answer (.value (inherited answer target own)) := by
  rw [readProfile, if_neg (by decide)]
  refine .bind (isApparmorEnabled_yields h) ?_
  refine .bind (apparmorProfilePath_yields (some pid)) ?_
  refine .bind (readApparmorLabel_yields (h.opens _) h.target htarget) ?_
  refine .bind (apparmorProfilePath_yields none) ?_
  refine .bind (readApparmorLabel_yields (h.opens _) h.own hown) ?_
  rw [inherited]
  split
  · exact .stop _
  · exact .stop _

end Reading

/-- No profile is requested only if there is no other one to request, and what
is requested is the profile of the target. -/
def Faithful (target own : Bytes) : Option LSMProfile → Prop
  | none => target = own
  | some profile => changeProfile profile.label = ascii "changeprofile " ++ target

/-- The first words tell two names apart, and are the name that is requested. -/
theorem firstWord_faithful_iff (target own : Bytes) :
    ((firstWord target = firstWord own → target = own) ∧
        (firstWord target ≠ firstWord own → firstWord target = target)) ↔
      target = own ∨ space ∉ target ∧ ¬target ++ [space] <+: own := by
  constructor
  · rintro ⟨hsame, hother⟩
    by_cases heq : target = own
    · exact .inl heq
    · have hne : firstWord target ≠ firstWord own := fun h => heq (hsame h)
      have hnot : space ∉ target := (firstWord_eq_iff target).mp (hother hne)
      refine .inr ⟨hnot, fun hprefix => hne ?_⟩
      rw [firstWord_of_isPrefix hnot hprefix]
      exact (firstWord_eq_iff target).mpr hnot
  · rintro (rfl | ⟨hnot, hprefix⟩)
    · exact ⟨fun _ => rfl, fun h => absurd rfl h⟩
    · have hword : firstWord target = target := (firstWord_eq_iff target).mpr hnot
      refine ⟨fun hsame => ?_, fun _ => hword⟩
      rw [hword] at hsame
      rcases firstWord_isPrefix own with hown | hown
      · rw [hsame, hown]
      · rw [← hsame] at hown
        exact absurd hown hprefix

theorem inherited_faithful_iff (answer : (c : Syscall) → c.Answer) (target own : Confinement)
    (targetEnd ownEnd : Bool) :
    Faithful target.profile own.profile
        (inherited answer (target.attr targetEnd) (own.attr ownEnd)) ↔
      target.profile = own.profile ∨
        space ∉ target.profile ∧ ¬target.profile ++ [space] <+: own.profile := by
  rw [← firstWord_faithful_iff, inherited, labelOf_attr, labelOf_attr]
  by_cases hsame : firstWord target.profile = firstWord own.profile
  · rw [if_pos hsame]
    constructor
    · intro heq
      exact ⟨fun _ => heq, fun hne => absurd hsame hne⟩
    · rintro ⟨heq, -⟩
      exact heq hsame
  · rw [if_neg hsame]
    constructor
    · intro hlabel
      exact ⟨fun h => absurd h hsame, fun _ => List.append_cancel_left hlabel⟩
    · rintro ⟨-, hword⟩
      show changeProfile (firstWord target.profile) = _
      rw [changeProfile, hword hsame]

/-- The profile is cut at its first space: a label is the whole name, and the
name of the target is told apart and requested, as long as there is none. -/
theorem readProfile_faithful_iff (answer : (c : Syscall) → c.Answer) :
    (∀ path name mode newlineAtEnd, answer (.openFile path .read) = .ok () →
      answer (.readToEnd (.atPath path .read)) =
        .ok ((Confinement.confined name mode).attr newlineAtEnd) →
      ((readApparmorLabel path).Yields (S := linux) answer (.value name.text) ↔
        space ∉ name.text)) ∧
    (∀ path newlineAtEnd, answer (.openFile path .read) = .ok () →
      answer (.readToEnd (.atPath path .read)) = .ok (Confinement.unconfined.attr newlineAtEnd) →
      (readApparmorLabel path).Yields (S := linux) answer (.value (ascii "unconfined"))) ∧
    ∀ (pid : Pid) (target own : Confinement) (targetEnd ownEnd : Bool),
      Reports answer pid (target.attr targetEnd) (own.attr ownEnd) →
      ((∃ profile, (readProfile pid .auto).Yields (S := linux) answer (.value profile) ∧
          Faithful target.profile own.profile profile) ↔
        target.profile = own.profile ∨
          space ∉ target.profile ∧ ¬target.profile ++ [space] <+: own.profile) := by
  refine ⟨fun path name mode newlineAtEnd hopen hread => ?_,
    fun path newlineAtEnd hopen hread => ?_,
    fun pid target own targetEnd ownEnd hreports => ?_⟩
  · have hlabel := readApparmorLabel_yields hopen hread (Confinement.isUtf8_attr _ _)
    rw [labelOf_attr] at hlabel
    rw [← firstWord_eq_iff]
    constructor
    · intro hname
      obtain ⟨log, hrun⟩ := hname []
      exact (Outcome.value.inj (hlabel.unique hrun)).symm
    · intro hword
      have hname : firstWord (Confinement.confined name mode).profile = name.text := hword
      rwa [hname] at hlabel
  · have hlabel := readApparmorLabel_yields hopen hread (Confinement.isUtf8_attr _ _)
    rwa [labelOf_attr] at hlabel
  · have hyields := readProfile_yields hreports (target.isUtf8_attr targetEnd)
      (own.isUtf8_attr ownEnd)
    rw [← inherited_faithful_iff answer target own targetEnd ownEnd]
    constructor
    · rintro ⟨profile, hprofile, hfaithful⟩
      obtain ⟨log, hrun⟩ := hprofile []
      rwa [Outcome.value.inj (hyields.unique hrun)] at hfaithful
    · intro hfaithful
      exact ⟨_, hyields, hfaithful⟩

/-- A host on which the process 42 and cntr have the given attributes. -/
def hostWith (target own : Confinement) : (c : Syscall) → c.Answer
  | .openFile _ _ => .ok ()
  | .readToEnd (.atPath path _) =>
      .ok (if path = enabledPath then ascii "Y\n"
        else if path = attributePath (ascii "/proc") (some someTarget) then target.attr true
        else own.attr true)
  | c => c.refused

theorem reports_hostWith (target own : Confinement) :
    Reports (hostWith target own) someTarget (target.attr true) (own.attr true) where
  enabledOpens := rfl
  enabled := rfl
  opens := fun _ => rfl
  target := by
    have hne : attributePath (ascii "/proc") (some someTarget) ≠ enabledPath := by decide
    exact congrArg Except.ok ((if_neg hne).trans (if_pos rfl))
  own := by
    have hne : attributePath (ascii "/proc") none ≠ enabledPath := by decide
    have hself : attributePath (ascii "/proc") none ≠
        attributePath (ascii "/proc") (some someTarget) := by decide
    exact congrArg Except.ok ((if_neg hne).trans (if_neg hself))

def enforce : ModeWord := ⟨ascii "enforce", isUtf8_of_all (by decide)⟩

def dockerDefault : Confinement :=
  .confined ⟨ascii "docker-default", by decide, by decide, isUtf8_of_all (by decide)⟩ enforce

theorem readProfile_faithful_dockerDefault :
    ∃ profile, (readProfile someTarget .auto).Yields (S := linux)
        (hostWith dockerDefault .unconfined) (.value profile) ∧
      Faithful dockerDefault.profile Confinement.unconfined.profile profile :=
  ((readProfile_faithful_iff (hostWith dockerDefault .unconfined)).2.2 someTarget dockerDefault
    .unconfined true true (reports_hostWith _ _)).mpr (.inr (by decide))

def appProfile : Confinement :=
  .confined ⟨ascii "/opt/My App/run", by decide, by decide, isUtf8_of_all (by decide)⟩ enforce

def toolsProfile : Confinement :=
  .confined ⟨ascii "/opt/My Tools/run", by decide, by decide, isUtf8_of_all (by decide)⟩ enforce

/-- Two profiles with the same first word pass for one, and none is requested. -/
theorem readProfile_confuses :
    Reports (hostWith appProfile toolsProfile) someTarget (ascii "/opt/My App/run (enforce)\n")
        (ascii "/opt/My Tools/run (enforce)\n") ∧
      (readProfile someTarget .auto).Yields (S := linux) (hostWith appProfile toolsProfile)
        (.value none) ∧
      ascii "/opt/My App/run" ≠ ascii "/opt/My Tools/run" := by
  refine ⟨reports_hostWith appProfile toolsProfile, ?_, by decide⟩
  exact readProfile_yields (reports_hostWith appProfile toolsProfile)
    (appProfile.isUtf8_attr true) (toolsProfile.isUtf8_attr true)

end Cntr.ProfileLabels
