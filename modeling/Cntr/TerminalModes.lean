import Cntr.ProcessSystem
import Cntr.ForwardedOutput

/-!
The attributes of the terminal while the program runs: raw while bytes are
forwarded, and those it had before at all other times.
-/

namespace Cntr.TerminalModes

open Cntr.ByteText
open Cntr.CallTree
open Cntr.SystemCalls
open Cntr.CallFootprints
open Cntr.CallsMade
open Cntr.ForwardedOutput (forwardFiles_wp Returns.not_halted)
open Cntr.HostCalls
open Cntr.IdmapHelperProcess
open Cntr.ProcessRoles
open Cntr.PtySession

/-- The terminal at the standard input, and whether giving it its attributes back
has failed. -/
structure Terminal where
  attr : Termios
  unrestored : Bool

/-- The calls that have to do with the terminal. -/
def Concerns : Syscall → Prop
  | .isatty fd | .tcgetattr fd | .tcsetattr fd _ _ => fd = stdin
  | _ => False

/-- A call that fails changes nothing of the terminal. -/
inductive Answers (isTty : Bool) : Terminal → (c : Syscall) → c.Answer → Terminal → Prop where
  | isatty (t : Terminal) : Answers isTty t (.isatty stdin) isTty t
  | got (t : Terminal) : Answers isTty t (.tcgetattr stdin) (.ok t.attr) t
  | getFailed (t : Terminal) (e : Errno) : Answers isTty t (.tcgetattr stdin) (.error e) t
  | set (t : Terminal) (now : Bool) (attr : Termios) :
      Answers isTty t (.tcsetattr stdin now attr) (.ok ()) { t with attr := attr }
  | setFailed (t : Terminal) (attr : Termios) (e : Errno) :
      Answers isTty t (.tcsetattr stdin false attr) (.error e) t
  | restoreFailed (t : Terminal) (attr : Termios) (e : Errno) :
      Answers isTty t (.tcsetattr stdin true attr) (.error e) { t with unrestored := true }
  | other (t : Terminal) {c : Syscall} (r : c.Answer) (unconcerned : ¬Concerns c) :
      Answers isTty t c r t

def terminal (isTty : Bool) : Kernel linux Terminal := Answers isTty

/-- The terminal has the attributes it had at first. -/
def Settled (original : Termios) (t : Terminal) : Prop := t.unrestored = false → t.attr = original

/-- The attributes while bytes are forwarded. -/
def during (isTty : Bool) (original : Termios) : Termios :=
  if isTty then RawTty.raw original else original

/-- The attributes at each call but those that change them. -/
def Kept (isTty : Bool) (original : Termios) (t : Terminal) (c : Syscall) : Prop :=
  (∀ fds timeout, c = .poll fds timeout → t.attr = during isTty original) ∧
    (Forwards c ∨ Settled original t)

section Wp

variable {ε ε' α β : Type} {isTty : Bool} {original : Termios} {t t' : Terminal}

theorem Answers.unconcerned {c : Syscall} {r : c.Answer} (answer : Answers isTty t c r t')
    (h : ¬Concerns c) : t' = t := by
  cases answer <;> first | rfl | exact absurd rfl h

theorem kept_of_settled {c : Syscall} (h : Settled original t)
    (hpoll : ∀ fds timeout, c ≠ .poll fds timeout) : Kept isTty original t c :=
  ⟨fun fds timeout heq => absurd heq (hpoll fds timeout), .inr h⟩

/-- The calls that leave the terminal alone and wait for nothing to be forwarded. -/
def Elsewhere : Syscall → Prop
  | .tcgetattr _ | .tcsetattr _ _ _ | .poll _ _ => False
  | _ => True

theorem Answers.elsewhere {c : Syscall} {r : c.Answer} (answer : Answers isTty t c r t')
    (hc : Elsewhere c) : t' = t := by
  cases answer <;> first | rfl | exact hc.elim

theorem elsewhere_wp (h : Settled original t) {p : Sys ε α}
    (hp : p.Within Elsewhere fun _ => True) :
    p.wp (terminal isTty) (Kept isTty original) (fun _ t' => t' = t) t := by
  refine Program.wp_post (hp.wp (I := fun t' => t' = t) ?_ ?_ rfl) fun _ _ ho => ho.1
  · rintro _ c rfl hc
    refine kept_of_settled h ?_
    rintro fds timeout rfl
    exact hc
  · rintro t₁ c r t₂ rfl hc answer
    exact Answers.elsewhere answer hc

/-- A part that is over before the terminal matters. -/
theorem elsewhere_bind (h : Settled original t) {p : Sys ε α}
    (hp : p.Within Elsewhere fun _ => True) {f : α → Sys ε β}
    (hf : ∀ a, (f a).wp (terminal isTty) (Kept isTty original)
      (fun _ t' => Settled original t') t) :
    (p.bind f).wp (terminal isTty) (Kept isTty original) (fun _ t' => Settled original t') t := by
  refine Program.wp_seq (elsewhere_wp h hp) ?_
  rintro (a | e | halt) _ rfl
  · exact hf a
  · exact h
  · exact h

/-- Before anything is forwarded. -/
def Fresh (original : Termios) (t : Terminal) : Prop := t = ⟨original, false⟩

theorem Fresh.settled (h : Fresh original t) : Settled original t := by
  rw [h]
  exact fun _ => rfl

end Wp

section Program

variable {τ : Type}

end Program

end Cntr.TerminalModes
