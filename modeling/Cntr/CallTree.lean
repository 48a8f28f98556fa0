import Mathlib.Logic.Basic

/-!
Programs that do nothing but compute and make calls, as trees: a node is a
call, its children are indexed by the answers. A loop is a node of its own, so
that programs which may run for ever are trees too. Nothing here fixes which
calls there are.
-/

namespace Cntr.CallTree

/-- The calls a program can make, and the type of the answers to each. -/
structure Signature where
  Call : Type
  Answer : Call → Type

/-- How a program ends: with a value, with an error for its caller, or with
the end of the process it runs in. -/
inductive Outcome (η ε α : Type) where
  | value (a : α)
  | error (e : ε)
  | halted (h : η)
  deriving DecidableEq

/-- Programs over the calls of `S`. `iterate body b k` runs `body` from `b`,
again from every `inl` it ends with, and goes on with `k` at the first `inr`. -/
inductive Program (S : Signature) (η ε : Type) : Type → Type 1 where
  | stop {α : Type} (o : Outcome η ε α) : Program S η ε α
  | ask {α : Type} (c : S.Call) (k : S.Answer c → Program S η ε α) :
      Program S η ε α
  | iterate {α β γ : Type} (body : β → Program S η ε (β ⊕ γ)) (b : β)
      (k : γ → Program S η ε α) : Program S η ε α

variable {S : Signature} {η ε ε' : Type} {α β γ : Type}

namespace Program

@[match_pattern] abbrev done (a : α) : Program S η ε α := .stop (.value a)

@[match_pattern] abbrev fail (e : ε) : Program S η ε α := .stop (.error e)

@[match_pattern] abbrev halt (h : η) : Program S η ε α := .stop (.halted h)

def call (c : S.Call) : Program S η ε (S.Answer c) := .ask c done

/-- Sequencing: an error or the end of the process skips what follows. -/
def bind : Program S η ε α → (α → Program S η ε β) → Program S η ε β
  | .done a, f => f a
  | .fail e, _ => .fail e
  | .halt h, _ => .halt h
  | .ask c k, f => .ask c fun r => (k r).bind f
  | .iterate body b k, f => .iterate body b fun c => (k c).bind f

instance : Monad (Program S η ε) where
  pure := done
  bind := bind

@[simp] theorem pure_eq (a : α) : (pure a : Program S η ε α) = done a := rfl

@[simp] theorem bind_eq (p : Program S η ε α) (f : α → Program S η ε β) :
    p >>= f = p.bind f := rfl

@[simp] theorem map_eq (f : α → β) (p : Program S η ε α) :
    f <$> p = p.bind fun a => done (f a) := rfl

@[simp] theorem done_bind (a : α) (f : α → Program S η ε β) :
    (done a).bind f = f a := rfl

@[simp] theorem fail_bind (e : ε) (f : α → Program S η ε β) :
    (fail e).bind f = fail e := rfl

@[simp] theorem halt_bind (h : η) (f : α → Program S η ε β) :
    (halt h).bind f = halt h := rfl

@[simp] theorem call_bind (c : S.Call) (f : S.Answer c → Program S η ε β) :
    (call c).bind f = .ask c f := rfl

theorem bind_done (p : Program S η ε α) : p.bind done = p := by
  induction p with
  | stop o => cases o <;> rfl
  | ask c k ih => exact congrArg (ask c) (funext ih)
  | iterate body b k _ ih => exact congrArg (iterate body b) (funext ih)

theorem bind_assoc (p : Program S η ε α) (f : α → Program S η ε β)
    (g : β → Program S η ε γ) :
    (p.bind f).bind g = p.bind fun a => (f a).bind g := by
  induction p with
  | stop o => cases o <;> rfl
  | ask c k ih => exact congrArg (ask c) (funext fun r => ih r f)
  | iterate body b k _ ih => exact congrArg (iterate body b) (funext fun c => ih c f)

/-- What a loop whose body ended with `r` does next, when an error of the body
is to be the value of the loop. -/
def attemptNext : Except ε (β ⊕ γ) → β ⊕ Except ε γ
  | .ok (.inl b) => .inl b
  | .ok (.inr c) => .inr (.ok c)
  | .error e => .inr (.error e)

/-- Go on with a value, or return the error as a value. -/
def orError (r : Except ε γ) (f : γ → Program S η ε' (Except ε α)) :
    Program S η ε' (Except ε α) :=
  match r with
  | .ok c => f c
  | .error e => .done (.error e)

/-- Turn an error of the program into a value. The end of the process is not
caught. -/
def attempt : {α : Type} → Program S η ε α → Program S η ε' (Except ε α)
  | _, .done a => .done (.ok a)
  | _, .fail e => .done (.error e)
  | _, .halt h => .halt h
  | _, .ask c k => .ask c fun r => (k r).attempt
  | _, .iterate body b k =>
      .iterate (fun b => (body b).attempt.bind fun r => .done (attemptNext r)) b
        fun r => orError r fun c => (k c).attempt

def ofExcept (f : ε → ε') : Except ε α → Program S η ε' α
  | .ok a => .done a
  | .error e => .fail (f e)

def mapError (f : ε → ε') (p : Program S η ε α) : Program S η ε' α :=
  p.attempt.bind (ofExcept f)

/-- Run `body` for every element of a list, in order. -/
def forEach {ι : Type} (body : ι → Program S η ε Unit) : List ι → Program S η ε Unit
  | [] => .done ()
  | x :: xs => (body x).bind fun _ => forEach body xs

theorem forEach_congr {ι : Type} {body body' : ι → Program S η ε Unit} {xs : List ι}
    (h : ∀ x ∈ xs, body x = body' x) : forEach body xs = forEach body' xs := by
  induction xs with
  | nil => rfl
  | cons x xs ih =>
      obtain ⟨hx, hxs⟩ := List.forall_mem_cons.mp h
      rw [forEach, forEach, hx, ih hxs]

end Program

end Cntr.CallTree
