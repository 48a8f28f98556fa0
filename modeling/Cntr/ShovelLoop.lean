import Cntr.FilePairBuffer

namespace Cntr.ShovelLoop

open Cntr.CallTree
open Cntr.SystemCalls
open Cntr.FilePairBuffer

variable {ε : Type}

def getWinsize : Sys ε Winsize := do
  match ← sys (.tcgetwinsize stdout) with
  | .ok ws => return ws
  | .error _ => return ⟨80, 25, 0, 0⟩

def setWinsize (ptyMaster : Fd) (ws : Winsize) : Sys ε Unit := do
  let _ ← sys (.tcsetwinsize ptyMaster ws)

/-- What shovel asks `poll` about a pair. -/
def pollFd (pair : FilePair) : PollFd :=
  match pair.state with
  | .read => ⟨pair.fromFile, .pollIn⟩
  | .write => ⟨pair.toFile, .pollOut⟩

def pollTimeout : Timespec := ⟨0, 100000000⟩

/-- The initial window size of the terminal, handed on to the PTY. -/
def initialWinsize (resize : Option Fd) : Sys ε (Option Winsize) :=
  match resize with
  | none => return none
  | some pty => do
      let ws ← getWinsize
      setWinsize pty ws
      return some ws

/-- The size check of a round; `last` is the size seen before. -/
def checkWinsize (resize : Option Fd) (last : Option Winsize) : Sys ε (Option Winsize) :=
  match resize, last with
  | some pty, some last => do
      let current ← getWinsize
      if current.wsRow ≠ last.wsRow ∨ current.wsCol ≠ last.wsCol then
        setWinsize pty current
        return some current
      else
        return some last
  | _, last => return last

/-- What shovel does with a pair that is ready. -/
def transfer (pair : FilePair) : Sys ε (Bool × FilePair) :=
  match pair.state with
  | .read => pair.read
  | .write => pair.write

/-- Read or write each pair that is ready, until one of them fails. -/
def serve : List FilePair → List Bool → Sys ε (Bool × List FilePair)
  | pair :: pairs, ready :: rest => do
      if ready then
        let (more, pair) ← transfer pair
        if more then
          let (more, pairs) ← serve pairs rest
          return (more, pair :: pairs)
        else
          return (false, pair :: pairs)
      else
        let (more, pairs) ← serve pairs rest
        return (more, pair :: pairs)
  | pairs, _ => return (true, pairs)

structure ShovelState where
  pairs : List FilePair
  lastWinsize : Option Winsize

/-- One round of the loop of `shovel`: `inl` goes on, `inr` returns. -/
def shovelRound (resize : Option Fd) (st : ShovelState) : Sys ε (ShovelState ⊕ Unit) := do
  match ← sys (.poll (st.pairs.map pollFd) (resize.map fun _ => pollTimeout)) with
  | .error e => if e = Errno.intr then return .inl st else return .inr ()
  | .ok revents =>
      let last ← checkWinsize resize st.lastWinsize
      let (more, pairs) ← serve st.pairs revents.1
      if more then return .inl ⟨pairs, last⟩ else return .inr ()

def shovel (pairs : List FilePair) (resize : Option Fd) : Sys ε Unit := do
  let last ← initialWinsize resize
  .iterate (shovelRound resize) ⟨pairs, last⟩ .done

/-- The pairs made by `FilePair::new` for a list of files, from a position on. -/
def newPairs : Nat → List (Fd × Fd) → List FilePair
  | _, [] => []
  | i, (fromFd, toFd) :: rest =>
      FilePair.new (.ofPair i fromFd) (.ofPair i toFd) :: newPairs (i + 1) rest

section Rules

variable {σ : Type} {K : Kernel linux σ} {G : σ → Syscall → Prop} {s : σ}

/-- The calls of a size check. -/
def Sizes : Syscall → Prop
  | .tcgetwinsize _ | .tcsetwinsize _ _ => True
  | _ => False

/-- The size that shovel goes by. -/
def seenSize : Except Errno Winsize → Winsize
  | .ok ws => ws
  | .error _ => ⟨80, 25, 0, 0⟩

theorem getWinsize_wp {Q : Outcome Halt ε Winsize → σ → Prop} (hguard : G s (.tcgetwinsize stdout))
    (h : ∀ r s', K s (.tcgetwinsize stdout) r s' → Q (.value (seenSize r)) s') :
    (getWinsize (ε := ε)).wp K G Q s := by
  refine ⟨hguard, ?_⟩
  rintro (e | ws) s' answer
  · exact h _ s' answer
  · exact h _ s' answer

theorem setWinsize_wp {Q : Outcome Halt ε Unit → σ → Prop} {pty : Fd} {ws : Winsize}
    (hguard : G s (.tcsetwinsize pty ws))
    (h : ∀ r s', K s (.tcsetwinsize pty ws) r s' → Q (.value ()) s') :
    (setWinsize (ε := ε) pty ws).wp K G Q s :=
  ⟨hguard, h⟩

/-- The calls of a size check are free, and lead on as `R` says. -/
structure Checks (K : Kernel linux σ) (G : σ → Syscall → Prop) (R : σ → σ → Prop) : Prop where
  refl : ∀ s, R s s
  trans : ∀ {s s' s''}, R s s' → R s' s'' → R s s''
  guard : ∀ {s c}, Sizes c → G s c
  get : ∀ {s r s'}, K s (.tcgetwinsize stdout) r s' → R s s'
  set : ∀ {s pty ws r s'}, K s (.tcsetwinsize pty ws) r s' → R s s'

theorem Checks.initialWinsize_wp {R : σ → σ → Prop} (checks : Checks K G R)
    (resize : Option Fd) (s : σ) :
    (initialWinsize (ε := ε) resize).wp K G
      (fun o s' => (∃ last, o = .value last) ∧ R s s') s := by
  cases resize with
  | none => exact ⟨⟨_, rfl⟩, checks.refl s⟩
  | some pty =>
      simp only [initialWinsize, Program.bind_eq, Program.wp_bind]
      refine getWinsize_wp (checks.guard trivial) fun r s₁ answer => ?_
      rw [Outcome.andThen_value, Program.wp_bind]
      refine setWinsize_wp (checks.guard trivial) fun r' s₂ answer' => ?_
      exact ⟨⟨_, rfl⟩, checks.trans (checks.get answer) (checks.set answer')⟩

theorem Checks.checkWinsize_wp {R : σ → σ → Prop} (checks : Checks K G R)
    (resize : Option Fd) (last : Option Winsize) (s : σ) :
    (checkWinsize (ε := ε) resize last).wp K G
      (fun o s' => (∃ last, o = .value last) ∧ R s s') s := by
  unfold checkWinsize
  split
  · simp only [Program.bind_eq, Program.wp_bind]
    refine getWinsize_wp (checks.guard trivial) fun r s₁ answer => ?_
    simp only [Outcome.andThen_value]
    split
    · rw [Program.wp_bind]
      refine setWinsize_wp (checks.guard trivial) fun r' s₂ answer' => ?_
      exact ⟨⟨_, rfl⟩, checks.trans (checks.get answer) (checks.set answer')⟩
    · exact ⟨⟨_, rfl⟩, checks.get answer⟩
  · exact ⟨⟨_, rfl⟩, checks.refl s⟩

/-- What serving the pair at position `i` comes to: it goes on, or the loop is over. -/
def Transferred (After : Nat → FilePair → σ → Prop) (Moved Stop : Nat → σ → σ → Prop)
    (i : Nat) (s : σ) : Outcome Halt ε (Bool × FilePair) → σ → Prop
  | .value (true, pair), s' => After i pair s' ∧ Moved i s s'
  | .value (false, _), s' => Stop i s s'
  | _, _ => False

/-- What holds of each pair before and after it is served: serving another pair does
not change it, and a pair that is not ready may be passed over. -/
structure Serving (ε : Type) (K : Kernel linux σ) (G : σ → Syscall → Prop)
    (Before : Nat → Bool → FilePair → σ → Prop) (After : Nat → FilePair → σ → Prop)
    (Moved Stop : Nat → σ → σ → Prop) : Prop where
  before : ∀ {i j ready pair s s'}, i < j → Moved i s s' → Before j ready pair s →
    Before j ready pair s'
  after : ∀ {i j pair s s'}, i < j → Moved j s s' → After i pair s → After i pair s'
  skip : ∀ {i pair s}, Before i false pair s → After i pair s ∧ Moved i s s
  transfer : ∀ {i pair s}, Before i true pair s →
    (transfer (ε := ε) pair).wp K G (Transferred After Moved Stop i s) s

/-- All of the pairs that are still to be served, the first one at position `base`. -/
def AllBefore (Before : Nat → Bool → FilePair → σ → Prop) :
    Nat → List FilePair → List Bool → σ → Prop
  | _, [], _, _ => True
  | base, pair :: pairs, ready :: rest, s =>
      Before base ready pair s ∧ AllBefore Before (base + 1) pairs rest s
  | _, _ :: _, [], _ => False

def AllAfter (After : Nat → FilePair → σ → Prop) : Nat → List FilePair → σ → Prop
  | _, [], _ => True
  | base, pair :: pairs, s => After base pair s ∧ AllAfter After (base + 1) pairs s

/-- `count` pairs are served one after the other, the first one at position `base`. -/
inductive Moves (Moved : Nat → σ → σ → Prop) : Nat → Nat → σ → σ → Prop where
  | nil (base : Nat) (s : σ) : Moves Moved base 0 s s
  | cons {base count : Nat} {s s' s'' : σ} (first : Moved base s s')
      (rest : Moves Moved (base + 1) count s' s'') : Moves Moved base (count + 1) s s''

/-- What serving `count` pairs from position `base` on leads to: all are served, or the
one at position `base + k` has ended the loop, while the others are as they should be. -/
def ServedFrom (Before : Nat → Bool → FilePair → σ → Prop) (After : Nat → FilePair → σ → Prop)
    (Moved Stop : Nat → σ → σ → Prop) (base count : Nat) (s : σ) :
    Outcome Halt ε (Bool × List FilePair) → σ → Prop
  | .value (true, pairs), s' =>
      AllAfter After base pairs s' ∧ pairs.length = count ∧ Moves Moved base count s s'
  | .value (false, _), s' => ∃ k s₁, k < count ∧ Moves Moved base k s s₁ ∧
      Stop (base + k) s₁ s' ∧ ∀ j < count, j ≠ k →
        (∃ pair, After (base + j) pair s₁) ∨ ∃ ready pair, Before (base + j) ready pair s₁
  | _, _ => False

section Serving

variable {Before : Nat → Bool → FilePair → σ → Prop} {After : Nat → FilePair → σ → Prop}
  {Moved Stop : Nat → σ → σ → Prop}

theorem AllBefore.get {base : Nat} {pairs : List FilePair} {ready : List Bool}
    (h : AllBefore Before base pairs ready s) (k : Nat) (hk : k < pairs.length) :
    ∃ ready, Before (base + k) ready pairs[k] s := by
  induction pairs generalizing base k ready with
  | nil => simp at hk
  | cons pair pairs ih =>
      cases ready with
      | nil => exact h.elim
      | cons ready rest =>
          cases k with
          | zero => exact ⟨ready, h.1⟩
          | succ k =>
              have hnext := ih h.2 k (by simpa using hk)
              rwa [Nat.add_assoc, Nat.add_comm 1 k] at hnext

theorem AllAfter.get {base : Nat} {pairs : List FilePair} (h : AllAfter After base pairs s)
    (k : Nat) (hk : k < pairs.length) : After (base + k) pairs[k] s := by
  induction pairs generalizing base k with
  | nil => simp at hk
  | cons pair pairs ih =>
      cases k with
      | zero => exact h.1
      | succ k =>
          have hnext := ih h.2 k (by simpa using hk)
          rwa [Nat.add_assoc, Nat.add_comm 1 k] at hnext

theorem allBefore_of_get {base : Nat} {pairs : List FilePair} {ready : List Bool}
    (hlength : ready.length = pairs.length)
    (h : ∀ k (hk : k < pairs.length) r, ready[k]? = some r → Before (base + k) r pairs[k] s) :
    AllBefore Before base pairs ready s := by
  induction pairs generalizing base ready with
  | nil => trivial
  | cons pair pairs ih =>
      cases ready with
      | nil => cases hlength
      | cons ready rest =>
          refine ⟨h 0 (Nat.succ_pos _) ready rfl, ih (by simpa using hlength) fun k hk r hr => ?_⟩
          have hnext := h (k + 1) (Nat.succ_lt_succ hk) r hr
          have hposition : base + 1 + k = base + (k + 1) := by omega
          rw [hposition]
          exact hnext

theorem Serving.allBefore (serving : Serving ε K G Before After Moved Stop) {i base : Nat}
    {pairs : List FilePair} {ready : List Bool} {s' : σ} (hi : i < base) (hmoved : Moved i s s')
    (h : AllBefore Before base pairs ready s) : AllBefore Before base pairs ready s' := by
  induction pairs generalizing base ready with
  | nil => trivial
  | cons pair pairs ih =>
      cases ready with
      | nil => exact h.elim
      | cons ready rest =>
          exact ⟨serving.before hi hmoved h.1, ih (Nat.lt_succ_of_lt hi) h.2⟩

theorem Serving.after_moves (serving : Serving ε K G Before After Moved Stop) {i base count : Nat}
    {pair : FilePair} {s' : σ} (hi : i < base) (hmoves : Moves Moved base count s s')
    (h : After i pair s) : After i pair s' := by
  induction hmoves with
  | nil => exact h
  | cons first _ ih => exact ih (Nat.lt_succ_of_lt hi) (serving.after hi first h)

theorem Serving.cons (serving : Serving ε K G Before After Moved Stop) {base count : Nat}
    {pair : FilePair} {s₁ s' : σ} (hpair : After base pair s₁) (hmoved : Moved base s s₁)
    {more : Bool} {pairs : List FilePair}
    (h : ServedFrom (ε := ε) Before After Moved Stop (base + 1) count s₁
      (.value (more, pairs)) s') :
    ServedFrom (ε := ε) Before After Moved Stop base (count + 1) s
      (.value (more, pair :: pairs)) s' := by
  cases more with
  | false =>
      obtain ⟨k, s₂, hk, hmoves, hstop, hothers⟩ := h
      refine ⟨k + 1, s₂, by omega, .cons hmoved hmoves, ?_, fun j hj hne => ?_⟩
      · rwa [Nat.add_assoc, Nat.add_comm 1 k] at hstop
      · cases j with
        | zero => exact .inl ⟨pair, serving.after_moves (Nat.lt_succ_self base) hmoves hpair⟩
        | succ j =>
            have hother := hothers j (by omega) (by omega)
            rwa [Nat.add_assoc, Nat.add_comm 1 j] at hother
  | true =>
      obtain ⟨hpairs, hcount, hmoves⟩ := h
      exact ⟨⟨serving.after_moves (Nat.lt_succ_self base) hmoves hpair, hpairs⟩,
        by rw [List.length_cons, hcount], .cons hmoved hmoves⟩

/-- Serving all pairs, by induction on them. -/
theorem Serving.serve_wp (serving : Serving ε K G Before After Moved Stop)
    {pairs : List FilePair} {ready : List Bool} {base : Nat}
    (h : AllBefore Before base pairs ready s) :
    (serve (ε := ε) pairs ready).wp K G
      (ServedFrom Before After Moved Stop base pairs.length s) s := by
  induction pairs generalizing base s ready with
  | nil => exact ⟨trivial, rfl, .nil base s⟩
  | cons pair pairs ih =>
      cases ready with
      | nil => exact h.elim
      | cons ready rest =>
          obtain ⟨hpair, hpairs⟩ := h
          -- the pairs after the first one, from wherever serving that one has led
          have hrest : ∀ (pair' : FilePair) (s₁ : σ), After base pair' s₁ → Moved base s s₁ →
              ((serve pairs rest).bind fun x => .done (x.1, pair' :: x.2)).wp K G
                (ServedFrom (ε := ε) Before After Moved Stop base (pairs.length + 1) s) s₁ := by
            intro pair' s₁ hpair' hmoved
            refine Program.wp_seq (ih (serving.allBefore (Nat.lt_succ_self base) hmoved hpairs))
              fun o s' ho => ?_
            rcases o with ⟨more, pairs'⟩ | e | e
            · exact serving.cons hpair' hmoved ho
            · exact ho
            · exact ho
          cases ready with
          | false =>
              obtain ⟨hafter, hmoved⟩ := serving.skip hpair
              exact hrest pair s hafter hmoved
          | true =>
              rw [serve]
              simp only [if_true, Program.bind_eq, Program.wp_bind]
              refine Program.wp_post (serving.transfer hpair) fun o s₁ ho => ?_
              rcases o with ⟨_ | _, pair'⟩ | e | e
              · have hall : AllBefore Before base (pair :: pairs) (true :: rest) s :=
                  ⟨hpair, hpairs⟩
                refine ⟨0, s, Nat.succ_pos _, .nil base s, ho, fun j hj hne => ?_⟩
                exact .inr ((hall.get j hj).imp fun ready hbefore => ⟨_, hbefore⟩)
              · exact hrest pair' s₁ ho.1 ho.2
              · exact ho
              · exact ho

end Serving

/-- What follows the pairs in a round. -/
def nextRound (last : Option Winsize) :
    Outcome Halt ε (Bool × List FilePair) → Outcome Halt ε (ShovelState ⊕ Unit)
  | .value (true, pairs) => .value (.inl ⟨pairs, last⟩)
  | .value (false, _) => .value (.inr ())
  | .error e => .error e
  | .halted h => .halted h

/-- A round: `poll` fails, or the size is checked and then the pairs are served. -/
theorem shovelRound_wp {Q : Outcome Halt ε (ShovelState ⊕ Unit) → σ → Prop} {resize : Option Fd}
    {st : ShovelState}
    (hguard : G s (.poll (st.pairs.map pollFd) (resize.map fun _ => pollTimeout)))
    (herror : ∀ e s', K s (.poll (st.pairs.map pollFd) (resize.map fun _ => pollTimeout))
      (.error e) s' → Q (.value (if e = Errno.intr then .inl st else .inr ())) s')
    (hready : ∀ revents s₁, K s (.poll (st.pairs.map pollFd) (resize.map fun _ => pollTimeout))
      (.ok revents) s₁ → (checkWinsize (ε := ε) resize st.lastWinsize).wp K G
        (fun o s₂ => ∃ last, o = .value last ∧ (serve (ε := ε) st.pairs revents.1).wp K G
          (fun o s₃ => Q (nextRound last o) s₃) s₂) s₁) :
    (shovelRound resize st).wp K G Q s := by
  refine ⟨hguard, ?_⟩
  rintro (e | revents) s₁ answer
  · have hend := herror e s₁ answer
    show Program.wp _ _ (if e = Errno.intr then _ else _) _ _
    split
    · next he => rwa [if_pos he] at hend
    · next he => rwa [if_neg he] at hend
  · show Program.wp _ _ ((checkWinsize _ _).bind _) _ _
    refine Program.wp_seq (hready revents s₁ answer) fun o s₂ ho => ?_
    obtain ⟨last, rfl, hserve⟩ := ho
    refine Program.wp_seq hserve fun o s₃ ho => ?_
    rcases o with ⟨_ | _, pairs⟩ | e | e
    · exact ho
    · exact ho
    · exact ho
    · exact ho

/-- What a round leads to, when `Head` holds wherever the loop goes on. -/
def RoundEnds (Head : ShovelState → σ → Prop) (Q : Outcome Halt ε Unit → σ → Prop) :
    Outcome Halt ε (ShovelState ⊕ Unit) → σ → Prop
  | .value (.inl st), s => Head st s
  | .value (.inr ()), s => Q (.value ()) s
  | .error e, s => Q (.error e) s
  | .halted h, s => Q (.halted h) s

theorem shovel_rule {Head : ShovelState → σ → Prop} {Q : Outcome Halt ε Unit → σ → Prop}
    {pairs : List FilePair} {resize : Option Fd}
    (hinit : (initialWinsize (ε := ε) resize).wp K G
      (fun o s' => ∃ last, o = .value last ∧ Head ⟨pairs, last⟩ s') s)
    (hround : ∀ st s, Head st s → (shovelRound resize st).wp K G (RoundEnds Head Q) s) :
    (shovel pairs resize).wp K G Q s := by
  refine Program.wp_seq hinit fun o s₁ ho => ?_
  obtain ⟨last, rfl, hhead⟩ := ho
  refine ⟨Head, hhead, fun st s₂ hst => Program.wp_post (hround st s₂ hst) fun o s₃ ho => ?_⟩
  rcases o with (st' | _) | e | e
  · exact ho
  · exact ho
  · exact ho
  · exact ho

variable (ε) in
/-- Started at `s` on these pairs, shovel comes to the head of its loop with `st`, at `s'`. -/
def LoopHead (K : Kernel linux σ) (pairs : List FilePair) (resize : Option Fd) (s : σ)
    (st : ShovelState) (s' : σ) : Prop :=
  ∃ last s₀, (initialWinsize (ε := ε) resize).Runs K s (.value last) s₀ ∧
    Program.Rounds K (shovelRound (ε := ε) resize) ⟨pairs, last⟩ s₀ st s'

/-- shovel returns just when a round that starts at a head returns. -/
theorem shovel_runs_iff {pairs : List FilePair} {resize : Option Fd} {s' : σ} :
    (shovel (ε := ε) pairs resize).Runs K s (.value ()) s' ↔
      ∃ st s₁, LoopHead ε K pairs resize s st s₁ ∧
        (shovelRound (ε := ε) resize st).Runs K s₁ (.value (.inr ())) s' := by
  constructor
  · intro run
    rcases Program.Runs.of_bind run with ⟨last, s₀, hinit, hloop⟩ | ⟨e, h, -⟩ | ⟨e, h, -⟩
    · obtain ⟨st, s₁, _, s₂, hrounds, hlast, hend⟩ := Program.Runs.of_iterate hloop
      cases hend
      exact ⟨st, s₁, ⟨last, s₀, hinit, hrounds⟩, hlast⟩
    · cases h
    · cases h
  · rintro ⟨st, s₁, ⟨last, s₀, hinit, hrounds⟩, hlast⟩
    exact Program.Runs.bind hinit (hrounds.runs (.leave hlast (.stop _ _)))

/-- The calls of shovel are those of the first size check and of rounds from heads. -/
theorem shovel_issues_iff {pairs : List FilePair} {resize : Option Fd} {c : Syscall} {s' : σ} :
    (shovel (ε := ε) pairs resize).Issues K s c s' ↔
      (initialWinsize (ε := ε) resize).Issues K s c s' ∨
        ∃ st s₁, LoopHead ε K pairs resize s st s₁ ∧
          (shovelRound (ε := ε) resize st).Issues K s₁ c s' := by
  rw [shovel, Program.bind_eq, Program.issues_bind_iff]
  refine or_congr_right ⟨?_, ?_⟩
  · rintro ⟨last, s₀, hinit, hloop⟩
    obtain ⟨st, s₁, hrounds, hround | ⟨_, s₂, -, hend⟩⟩ := Program.issues_iterate_iff.mp hloop
    · exact ⟨st, s₁, ⟨last, s₀, hinit, hrounds⟩, hround⟩
    · cases hend
  · rintro ⟨st, s₁, ⟨last, s₀, hinit, hrounds⟩, hround⟩
    exact ⟨last, s₀, hinit, Program.issues_iterate_iff.mpr ⟨st, s₁, hrounds, .inl hround⟩⟩

/-- What holds at the first head, and from head to head, holds at every head. -/
theorem LoopHead.invariant {Head : ShovelState → σ → Prop} {Q : Outcome Halt ε Unit → σ → Prop}
    {pairs : List FilePair} {resize : Option Fd} {st : ShovelState} {s' : σ}
    (hinit : (initialWinsize (ε := ε) resize).wp K G
      (fun o s' => ∃ last, o = .value last ∧ Head ⟨pairs, last⟩ s') s)
    (hround : ∀ st s, Head st s → (shovelRound resize st).wp K G (RoundEnds Head Q) s)
    (h : LoopHead ε K pairs resize s st s') : Head st s' := by
  obtain ⟨last, s₀, hstart, hrounds⟩ := h
  obtain ⟨_, heq, hhead⟩ := hstart.of_wp hinit
  cases heq
  refine hrounds.invariant (G := G) (fun st s hst => ?_) hhead
  refine Program.wp_post (hround st s hst) fun o s' ho st' heq => ?_
  rw [heq] at ho
  exact ho

end Rules

/-- A pair between two calls of shovel that concern it. -/
def Kept (i : Nat) (pair : FilePair) (log : Log) : Prop := Settled i pair log ∧ Calm log

def Moved (i : Nat) (log log' : Log) : Prop := Elsewhere i log log' ∧ Calm log'

/-- A call of the pair at position `i` has just failed. -/
def Stop (i : Nat) (log log' : Log) : Prop :=
  ∃ pre ev, log' = pre ++ [ev] ∧ Broken i pre ev ∧ Calm pre ∧ Elsewhere i log pre

theorem Kept.of_moved {i j : Nat} {pair : FilePair} {log log' : Log} (hne : j ≠ i)
    (hmoved : Moved i log log') (h : Kept j pair log) : Kept j pair log' :=
  ⟨h.1.of_untouched (hmoved.1 j hne), hmoved.2⟩

theorem transfer_wp {pair : FilePair} {i : Nat} {log : Log} (h : Kept i pair log) :
    (transfer (ε := ε) pair).wp (tracing linux) ReadsDrained (Transferred Kept Moved Stop i log)
      log := by
  obtain ⟨hsettled, hcalm⟩ := h
  have hserved : (transfer (ε := ε) pair).wp (tracing linux) ReadsDrained (PairServed i log)
      log := by
    unfold transfer
    split
    · next hstate => exact FilePair.read_wp hsettled hstate hcalm
    · exact FilePair.write_wp hsettled.fromFile hsettled.toFile hsettled.write_le_read
        hsettled.read_le_size hsettled.accounted hcalm fun j _ => .refl j log
  refine Program.wp_post hserved fun o log' ho => ?_
  rcases o with ⟨_ | _, pair'⟩ | e | e
  · exact ho
  · obtain ⟨hpair, hcalm', helse⟩ := ho
    exact ⟨⟨hpair, hcalm'⟩, helse, hcalm'⟩
  · exact ho
  · exact ho

theorem serving : Serving ε (tracing linux) ReadsDrained (fun i _ pair log => Kept i pair log)
    Kept Moved Stop where
  before hlt hmoved h := h.of_moved (by omega) hmoved
  after hlt hmoved h := h.of_moved (by omega) hmoved
  skip h := ⟨h, fun j _ => .refl j _, h.2⟩
  transfer := transfer_wp

theorem checks : Checks (tracing linux) ReadsDrained Idle where
  refl := .refl
  trans := .trans
  guard hsizes i fd size hc := by
    subst hc
    exact hsizes.elim
  get := by
    rintro log r _ rfl
    exact .snoc log _ (fun _ => rfl) (fun _ => rfl) (fun _ => rfl) id
  set := by
    rintro log pty ws r _ rfl
    exact .snoc log _ (fun _ => rfl) (fun _ => rfl) (fun _ => rfl) id

theorem calm_of_moves {base count : Nat} {log log' : Log} (h : Moves Moved base count log log')
    (hcalm : Calm log) : Calm log' := by
  induction h with
  | nil => exact hcalm
  | cons first _ ih => exact ih first.2

structure AtHead (count : Nat) (st : ShovelState) (log : Log) : Prop where
  settled : ∀ i (hi : i < st.pairs.length), Settled i st.pairs[i] log
  length_eq : st.pairs.length = count
  calm : Calm log

theorem AtHead.of_idle {count : Nat} {st : ShovelState} {log log' : Log} (h : AtHead count st log)
    (hidle : Idle log log') : AtHead count st log' where
  settled i hi := (h.settled i hi).of_untouched (hidle.1 i)
  length_eq := h.length_eq
  calm := hidle.2 h.calm

/-- The last call of shovel: `poll` failed, or a call of one of the pairs, while nothing
concerned the others. -/
inductive LastCall (count : Nat) (log : Log) : Event linux → Prop where
  | poll {fds : List PollFd} {timeout : Option Timespec} {e : Errno}
      (hard : e ≠ Errno.intr) (level : ∀ i < count, Level i log) :
      LastCall count log ⟨.poll fds timeout, .error e⟩
  | pair {ev : Event linux} (i : Nat) (broken : Broken i log ev)
      (level : ∀ j < count, j ≠ i → Level j log) : LastCall count log ev

theorem LastCall.failed {count : Nat} {log : Log} {ev : Event linux}
    (h : LastCall count log ev) : Failed ev := by
  cases h with
  | poll hard => exact hard
  | pair i broken => cases broken <;> exact trivial

/-- shovel has just returned. -/
def Stopped (count : Nat) (log : Log) : Prop :=
  ∃ pre ev, log = pre ++ [ev] ∧ Calm pre ∧ LastCall count pre ev

def Returned (count : Nat) (o : Outcome Halt ε Unit) (log : Log) : Prop :=
  o = .value () ∧ Stopped count log

theorem Stop.stopped {count i : Nat} {log log' : Log} (hstop : Stop i log log')
    (hothers : ∀ j < count, j ≠ i → Level j log) : Stopped count log' := by
  obtain ⟨pre, ev, rfl, hbroken, hcalm, helse⟩ := hstop
  refine ⟨pre, ev, rfl, hcalm, .pair i hbroken fun j hj hne => ?_⟩
  have hsame := helse j hne
  rw [Level, hsame.traffic.1, hsame.traffic.2, hsame.left]
  exact hothers j hj hne

theorem round_wp {resize : Option Fd} {count : Nat} {st : ShovelState} {log : Log}
    (h : AtHead count st log) :
    (shovelRound (ε := ε) resize st).wp (tracing linux) ReadsDrained
      (RoundEnds (AtHead count) (Returned count)) log := by
  refine shovelRound_wp (fun _ _ _ hc => by cases hc) ?_ ?_
  · -- the interrupted poll is the only failure after which the loop goes on
    rintro e _ rfl
    split
    · next he =>
        exact h.of_idle (.snoc log _ (fun _ => rfl) (fun _ => rfl) (fun _ => rfl)
          (not_not_intro he))
    · next he =>
        refine ⟨rfl, log, _, rfl, h.calm, .poll he fun i hi => ?_⟩
        exact (h.settled i (by rwa [h.length_eq])).level
  · rintro revents log₁ rfl
    refine Program.wp_post (checks.checkWinsize_wp resize st.lastWinsize _) fun o log₂ ho => ?_
    obtain ⟨⟨last, rfl⟩, hidle⟩ := ho
    have hhead := h.of_idle ((Idle.snoc log _ (fun _ => rfl) (fun _ => rfl) (fun _ => rfl)
      id).trans hidle)
    have hbefore : AllBefore (fun i _ pair log => Kept i pair log) 0 st.pairs revents.1 log₂ := by
      refine allBefore_of_get (revents.2.trans (List.length_map _)) fun k hk r _ => ?_
      rw [Nat.zero_add]
      exact ⟨hhead.settled k hk, hhead.calm⟩
    refine ⟨last, rfl, Program.wp_post (serving.serve_wp hbefore) fun o log₃ ho => ?_⟩
    rcases o with ⟨_ | _, pairs⟩ | e | e
    · obtain ⟨k, log', -, -, hstop, hothers⟩ := ho
      refine ⟨rfl, hstop.stopped fun j hj hne => ?_⟩
      rw [← h.length_eq] at hj
      obtain ⟨pair, hpair⟩ | ⟨-, pair, hpair⟩ := hothers j hj (by omega)
      · rw [Nat.zero_add] at hpair
        exact hpair.1.level
      · rw [Nat.zero_add] at hpair
        exact hpair.1.level
    · obtain ⟨hafter, hlength, hmoves⟩ := ho
      refine ⟨fun i hi => ?_, hlength.trans h.length_eq, ?_⟩
      · have hpair := hafter.get i hi
        rw [Nat.zero_add] at hpair
        exact hpair.1
      · exact calm_of_moves hmoves hhead.calm
    · exact ho.elim
    · exact ho.elim

theorem newPairs_length (base : Nat) (files : List (Fd × Fd)) :
    (newPairs base files).length = files.length := by
  induction files generalizing base with
  | nil => rfl
  | cons fd files ih => simp [newPairs, ih]

theorem newPairs_get {base : Nat} {files : List (Fd × Fd)} {i : Nat}
    (hi : i < (newPairs base files).length) :
    ∃ fromFd toFd, (newPairs base files)[i] =
      FilePair.new (.ofPair (base + i) fromFd) (.ofPair (base + i) toFd) := by
  induction files generalizing base i with
  | nil => cases hi
  | cons fd files ih =>
      cases i with
      | zero => exact ⟨fd.1, fd.2, rfl⟩
      | succ i =>
          have hrest := @ih (base + 1) i (Nat.lt_of_succ_lt_succ hi)
          obtain ⟨fromFd, toFd, hpair⟩ := hrest
          rw [Nat.add_assoc, Nat.add_comm 1 i] at hpair
          exact ⟨fromFd, toFd, hpair⟩

/-- Nothing has been read yet, and nothing has failed. -/
structure Fresh (log : Log) : Prop where
  even : ∀ i, accepted i log = returned i log
  left : ∀ i, leftOver i log = 0
  calm : Calm log

theorem fresh_nil : Fresh [] := ⟨fun _ => rfl, fun _ => rfl, fun _ hmem => by cases hmem⟩

theorem Fresh.of_idle {log log' : Log} (h : Fresh log) (hidle : Idle log log') : Fresh log' where
  even i := by
    rw [(hidle.1 i).traffic.1, (hidle.1 i).traffic.2]
    exact h.even i
  left i := (hidle.1 i).left.trans (h.left i)
  calm := hidle.2 h.calm

theorem atHead_newPairs {log : Log} (h : Fresh log) (files : List (Fd × Fd))
    (last : Option Winsize) : AtHead files.length ⟨newPairs 0 files, last⟩ log where
  settled i hi := by
    obtain ⟨fromFd, toFd, hpair⟩ := newPairs_get hi
    simp only [hpair, Nat.zero_add]
    refine ⟨FilePair.coherent_new _ _, ⟨fromFd, rfl⟩, ⟨toFd, rfl⟩, ?_, h.left i⟩
    simp [FilePair.pending, FilePair.new, h.even i]
  length_eq := newPairs_length 0 files
  calm := h.calm

theorem start_wp {resize : Option Fd} {files : List (Fd × Fd)} {log : Log} (h : Fresh log) :
    (initialWinsize (ε := ε) resize).wp (tracing linux) ReadsDrained
      (fun o log' => ∃ last, o = .value last ∧
        AtHead files.length ⟨newPairs 0 files, last⟩ log') log := by
  refine Program.wp_post (checks.initialWinsize_wp resize log) fun o log' ho => ?_
  obtain ⟨⟨last, rfl⟩, hidle⟩ := ho
  exact ⟨last, rfl, atHead_newPairs (h.of_idle hidle) files last⟩

/-- shovel can only return, and then a call has just failed. -/
theorem shovel_wp {resize : Option Fd} {files : List (Fd × Fd)} {log : Log} (h : Fresh log) :
    (shovel (ε := ε) (newPairs 0 files) resize).wp (tracing linux) ReadsDrained
      (Returned files.length) log :=
  shovel_rule (start_wp h) fun _ _ => round_wp

/-- At the head of every round: for every pair, what `from` has returned is what
`to` has accepted and what is left in the buffer between the two offsets. No run
of shovel panics, and no pair reads before all it has read is written. -/
theorem shovel_conserves_bytes (files : List (Fd × Fd)) (resize : Option Fd) :
    (∀ (st : ShovelState) (log : Log),
      LoopHead ε (tracing linux) (newPairs 0 files) resize [] st log →
      st.pairs.length = files.length ∧
      ∀ i (hi : i < st.pairs.length),
        (∃ slice, st.pairs[i].buf.slice st.pairs[i].writeOffset st.pairs[i].readOffset =
            some slice ∧ accepted i log ++ slice = returned i log) ∧
        st.pairs[i].writeOffset ≤ st.pairs[i].readOffset ∧
        st.pairs[i].readOffset ≤ bufSize ∧
        (st.pairs[i].state = .read →
          st.pairs[i].readOffset = 0 ∧ st.pairs[i].writeOffset = 0) ∧
        (st.pairs[i].state = .write → st.pairs[i].writeOffset < st.pairs[i].readOffset)) ∧
    (∀ (o : Outcome Halt ε Unit) (log : Log),
      (shovel (newPairs 0 files) resize).Runs (tracing linux) [] o log → o = .value ()) ∧
    (∀ (c : Syscall) (log : Log),
      (shovel (ε := ε) (newPairs 0 files) resize).Issues (tracing linux) [] c log →
      ReadsDrained log c) := by
  refine ⟨fun st log hloop => ?_, fun o log run => (run.of_wp (shovel_wp fresh_nil)).1,
    fun c log issue => issue.of_wp (shovel_wp fresh_nil)⟩
  have hhead := hloop.invariant (start_wp fresh_nil) fun _ _ => round_wp
  refine ⟨hhead.length_eq, fun i hi => ?_⟩
  have h := hhead.settled i hi
  exact ⟨⟨_, FilePair.slice_eq_pending h.write_le_read h.read_le_size, h.accounted⟩,
    h.write_le_read, h.read_le_size, h.of_read, h.of_write⟩

/-- A terminal that is ready, returns two bytes and takes them one at a time. -/
def oneByteAtATime : (c : Syscall) → c.Answer
  | .poll fds _ => .ok ⟨fds.map fun _ => true, by simp⟩
  | .read _ size => if h : 2 ≤ size then .ok ⟨[104, 105], h⟩ else .error .invalidData
  | .write _ bytes => .ok ⟨min 1 bytes.length, by omega⟩
  | c => c.refused

theorem shovel_conserves_bytes_oneByteAtATime :
    ∃ st log, LoopHead Empty (tracing linux) (newPairs 0 [(stdin, 3)]) none [] st log ∧
      accepted 0 log = [104] ∧ returned 0 log = [104, 105] ∧ st.pairs.length = 1 ∧
      ∀ i (hi : i < st.pairs.length), st.pairs[i].writeOffset ≤ st.pairs[i].readOffset := by
  have hround : ∃ st log, (shovelRound (ε := Empty) none
      ⟨newPairs 0 [(stdin, 3)], none⟩).Runs (tracing linux) [] (.value (.inl st)) log ∧
      accepted 0 log = [104] ∧ returned 0 log = [104, 105] :=
    ⟨_, _, .of_replay (fun _ => oneByteAtATime) 3 rfl, rfl, rfl⟩
  obtain ⟨st, log, hrun, haccepted, hreturned⟩ := hround
  have hhead : LoopHead Empty (tracing linux) (newPairs 0 [(stdin, 3)]) none [] st log :=
    ⟨none, [], .stop _ _, .round (.refl _ _) hrun⟩
  obtain ⟨hlength, hpairs⟩ := (shovel_conserves_bytes (ε := Empty) [(stdin, 3)] none).1 st log hhead
  exact ⟨st, log, hhead, haccepted, hreturned, hlength, fun i hi => (hpairs i hi).2.1⟩

end Cntr.ShovelLoop
