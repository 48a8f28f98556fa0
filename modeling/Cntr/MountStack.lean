import Mathlib.Data.List.Induction

/-!
Stacks of mounts, in which a later mount covers what is at or below its place,
and what becomes of a stack when the trees that are seen at some places are
copied, changed and mounted over themselves, one after the other.
-/

namespace Cntr.MountStack

/-- Mounts with their places, the oldest first. -/
abbrev Stack (κ α : Type) : Type := List (List κ × α)

section Trees

variable {κ α : Type}

def place (p : List κ) (tree : Stack κ α) : Stack κ α := tree.map fun m => (p ++ m.1, m.2)

theorem place_cons (p : List κ) (m : List κ × α) (tree : Stack κ α) :
    place p (m :: tree) = (p ++ m.1, m.2) :: place p tree := rfl

variable [DecidableEq κ]

/-- What becomes of the tree that is seen at a place when one more mount is
made: its places are relative to the one it is seen at, and that of its root is
empty. -/
def grow (p : List κ) (tree : Stack κ α) (m : List κ × α) : Stack κ α :=
  if m.1 <+: p then [([], m.2)]
  else if p <+: m.1 ∧ tree ≠ [] then tree ++ [(m.1.drop p.length, m.2)]
  else tree

/-- The topmost mount at a place, and all the mounts below it. -/
def treeAt (p : List κ) (stack : Stack κ α) : Stack κ α := stack.foldl (grow p) []

/-- What the topmost mount at a place is. -/
def shown (p : List κ) (stack : Stack κ α) : Option α := (treeAt p stack).head?.map Prod.snd

variable {p q : List κ} {stack tree acc : Stack κ α} {m : List κ × α}

@[simp] theorem treeAt_snoc :
    treeAt p (stack ++ [m]) = grow p (treeAt p stack) m := by
  rw [treeAt, List.foldl_append]
  rfl

theorem treeAt_append (stack tree : Stack κ α) :
    treeAt p (stack ++ tree) = tree.foldl (grow p) (treeAt p stack) := List.foldl_append

theorem grow_above (h : m.1 <+: p) : grow p tree m = [([], m.2)] := if_pos h

theorem grow_below (h : p <+: m.1) (hnot : ¬m.1 <+: p) (hne : tree ≠ []) :
    grow p tree m = tree ++ [(m.1.drop p.length, m.2)] := by
  rw [grow, if_neg hnot, if_pos ⟨h, hne⟩]

theorem grow_nil (hnot : ¬m.1 <+: p) : grow p ([] : Stack κ α) m = [] := by
  rw [grow, if_neg hnot, if_neg fun h => h.2 rfl]

theorem grow_apart (hnot : ¬m.1 <+: p) (h : ¬p <+: m.1) : grow p tree m = tree := by
  rw [grow, if_neg hnot, if_neg fun h' => h h'.1]

theorem grow_ne_nil (hne : tree ≠ []) : grow p tree m ≠ [] := by
  rw [grow]
  split
  · simp
  · split
    · simp
    · exact hne

theorem foldl_grow_ne_nil (hne : acc ≠ []) : stack.foldl (grow p) acc ≠ [] := by
  induction stack generalizing acc with
  | nil => exact hne
  | cons m stack ih => exact ih (grow_ne_nil hne)

/-- Nothing is seen but what was mounted. -/
theorem forall_mem_foldl_grow {P : α → Prop} (hacc : ∀ m ∈ acc, P m.2)
    (hstack : ∀ m ∈ stack, P m.2) : ∀ m ∈ stack.foldl (grow p) acc, P m.2 := by
  induction stack generalizing acc with
  | nil => exact hacc
  | cons first stack ih =>
      refine ih (fun m hm => ?_) fun m hm => hstack m (List.mem_cons_of_mem _ hm)
      have hfirst := hstack first List.mem_cons_self
      rw [grow] at hm
      split at hm
      · obtain rfl := List.mem_singleton.mp hm
        exact hfirst
      · split at hm
        · rcases List.mem_append.mp hm with hm | hm
          · exact hacc m hm
          · obtain rfl := List.mem_singleton.mp hm
            exact hfirst
        · exact hacc m hm

theorem foldl_grow_place_apart (hqp : ¬q <+: p) (hpq : ¬p <+: q) :
    (place q tree).foldl (grow p) acc = acc := by
  induction tree generalizing acc with
  | nil => rfl
  | cons m tree ih =>
      have habove : ¬q ++ m.1 <+: p := fun h => hqp ((List.prefix_append q m.1).trans h)
      have hbelow : ¬p <+: q ++ m.1 := by
        intro h
        rcases List.prefix_or_prefix_of_prefix h (List.prefix_append q m.1) with h | h
        · exact hpq h
        · exact hqp h
      rw [place_cons, List.foldl_cons, grow_apart habove hbelow, ih]

theorem foldl_grow_place_below (hpq : p <+: q) (hqp : ¬q <+: p) (hne : acc ≠ []) :
    (place q tree).foldl (grow p) acc = acc ++ place (q.drop p.length) tree := by
  induction tree generalizing acc with
  | nil => exact (List.append_nil acc).symm
  | cons m tree ih =>
      have habove : ¬q ++ m.1 <+: p := fun h => hqp ((List.prefix_append q m.1).trans h)
      have hgrow := grow_below (m := (q ++ m.1, m.2)) (hpq.trans (List.prefix_append q m.1))
        habove hne
      rw [List.drop_append_of_le_length hpq.length_le] at hgrow
      rw [place_cons, List.foldl_cons, hgrow, ih (List.append_ne_nil_of_left_ne_nil hne _),
        List.append_assoc]
      rfl

theorem foldl_grow_place_nil (hqp : ¬q <+: p) :
    (place q tree).foldl (grow p) ([] : Stack κ α) = [] := by
  induction tree with
  | nil => rfl
  | cons m tree ih =>
      have habove : ¬q ++ m.1 <+: p := fun h => hqp ((List.prefix_append q m.1).trans h)
      rw [place_cons, List.foldl_cons, grow_nil habove, ih]

theorem treeAt_rooted (p : List κ) (stack : Stack κ α) (hne : treeAt p stack ≠ []) :
    ∃ a rest, treeAt p stack = ([], a) :: rest := by
  induction stack using List.reverseRecOn with
  | nil => exact absurd rfl hne
  | append_singleton stack m ih =>
      rw [treeAt_snoc] at hne ⊢
      by_cases habove : m.1 <+: p
      · exact ⟨m.2, [], grow_above habove⟩
      have htree : treeAt p stack ≠ [] := by
        intro hnil
        rw [hnil, grow_nil habove] at hne
        exact hne rfl
      obtain ⟨a, rest, hrooted⟩ := ih htree
      by_cases hbelow : p <+: m.1
      · rw [grow_below hbelow habove htree, hrooted]
        exact ⟨a, _, rfl⟩
      · rw [grow_apart habove hbelow]
        exact ⟨a, rest, hrooted⟩

theorem treeAt_ne_nil_of_isPrefix (hpq : p <+: q) (hne : treeAt p stack ≠ []) :
    treeAt q stack ≠ [] := by
  induction stack using List.reverseRecOn with
  | nil => exact absurd rfl hne
  | append_singleton stack m ih =>
      rw [treeAt_snoc] at hne ⊢
      by_cases habove : m.1 <+: p
      · rw [grow_above (habove.trans hpq)]
        exact List.cons_ne_nil _ _
      · refine grow_ne_nil (ih fun hnil => hne ?_)
        rw [hnil, grow_nil habove]

theorem treeAt_snoc_ne_nil (hnot : ¬m.1 <+: p) (hne : treeAt p (stack ++ [m]) ≠ []) :
    treeAt p stack ≠ [] := by
  intro hnil
  rw [treeAt_snoc, hnil, grow_nil hnot] at hne
  exact hne rfl

theorem mem_treeAt_of_isPrefix (hpq : p <+: q) (hne : treeAt p stack ≠ [])
    (hm : m ∈ treeAt q stack) : ∃ m' ∈ treeAt p stack, m'.2 = m.2 := by
  induction stack using List.reverseRecOn generalizing m with
  | nil => exact absurd rfl hne
  | append_singleton stack last ih =>
      have hkeep : ∀ {m}, treeAt p stack ≠ [] → ¬last.1 <+: p → m ∈ treeAt q stack →
          ∃ m' ∈ grow p (treeAt p stack) last, m'.2 = m.2 := by
        intro m htree habove hm
        obtain ⟨m', hm', heq⟩ := ih htree hm
        refine ⟨m', ?_, heq⟩
        rw [grow, if_neg habove]
        split
        · exact List.mem_append_left _ hm'
        · exact hm'
      rw [treeAt_snoc] at hm ⊢
      by_cases habove : last.1 <+: p
      · rw [grow_above (habove.trans hpq)] at hm
        obtain rfl := List.mem_singleton.mp hm
        rw [grow_above habove]
        exact ⟨_, List.mem_singleton_self _, rfl⟩
      have htree := treeAt_snoc_ne_nil habove hne
      by_cases haboveq : last.1 <+: q
      · rw [grow_above haboveq] at hm
        obtain rfl := List.mem_singleton.mp hm
        have hbelow : p <+: last.1 :=
          (List.prefix_or_prefix_of_prefix hpq haboveq).resolve_right habove
        rw [grow_below hbelow habove htree]
        exact ⟨_, List.mem_append_right _ (List.mem_singleton_self _), rfl⟩
      by_cases hbelowq : q <+: last.1
      · rw [grow_below hbelowq haboveq (treeAt_ne_nil_of_isPrefix hpq htree)] at hm
        rcases List.mem_append.mp hm with hm | hm
        · exact hkeep htree habove hm
        · obtain rfl := List.mem_singleton.mp hm
          rw [grow_below (hpq.trans hbelowq) habove htree]
          exact ⟨_, List.mem_append_right _ (List.mem_singleton_self _), rfl⟩
      · rw [grow_apart haboveq hbelowq] at hm
        exact hkeep htree habove hm

/-- Below its root a tree is part of the trees that are seen further up. -/
theorem mem_place_of_isPrefix (hpq : p <+: q) (hne : treeAt p stack ≠ [])
    (hm : m ∈ treeAt q stack) (hbelow : m.1 ≠ []) :
    (q ++ m.1, m.2) ∈ place p (treeAt p stack) := by
  induction stack using List.reverseRecOn generalizing m with
  | nil => exact absurd rfl hne
  | append_singleton stack last ih =>
      have hkeep : ∀ {m : List κ × α}, treeAt p stack ≠ [] → ¬last.1 <+: p →
          m ∈ place p (treeAt p stack) → m ∈ place p (grow p (treeAt p stack) last) := by
        intro m htree habove hm
        rw [grow, if_neg habove]
        split
        · rw [place, List.map_append]
          exact List.mem_append_left _ hm
        · exact hm
      rw [treeAt_snoc] at hm ⊢
      by_cases haboveq : last.1 <+: q
      · rw [grow_above haboveq] at hm
        obtain rfl := List.mem_singleton.mp hm
        exact absurd rfl hbelow
      have habove : ¬last.1 <+: p := fun h => haboveq (h.trans hpq)
      have htree := treeAt_snoc_ne_nil habove hne
      by_cases hbelowq : q <+: last.1
      · rw [grow_below hbelowq haboveq (treeAt_ne_nil_of_isPrefix hpq htree)] at hm
        rcases List.mem_append.mp hm with hm | hm
        · exact hkeep htree habove (ih htree hm hbelow)
        · obtain rfl := List.mem_singleton.mp hm
          have hsplit : ∀ {r : List κ}, r <+: last.1 → r ++ last.1.drop r.length = last.1 :=
            fun h => List.prefix_iff_eq_append.mp h
          rw [grow_below (hpq.trans hbelowq) habove htree, place, List.map_append]
          refine List.mem_append_right _ (List.mem_singleton.mpr ?_)
          exact congrArg (·, last.2)
            ((hsplit hbelowq).trans (hsplit (hpq.trans hbelowq)).symm)
      · rw [grow_apart haboveq hbelowq] at hm
        exact hkeep htree habove (ih htree hm hbelow)

end Trees

section Overlays

variable {κ α : Type} (good : α → Prop) (mark : α → α)

/-- A tree that can be copied and changed as a whole. -/
def Ready (tree : Stack κ α) : Prop := tree ≠ [] ∧ ∀ m ∈ tree, good m.2

instance [DecidablePred good] (tree : Stack κ α) : Decidable (Ready good tree) :=
  inferInstanceAs (Decidable (_ ∧ _))

def relabel (tree : Stack κ α) : Stack κ α := tree.map fun m => (m.1, mark m.2)

variable [DecidableEq κ]

/-- Mount a changed copy of the tree at a place over it. -/
def overlaid (p : List κ) (stack : Stack κ α) : Stack κ α :=
  stack ++ place p (relabel mark (treeAt p stack))

variable {good mark} {p q : List κ} {stack : Stack κ α}

theorem treeAt_overlaid_above (hne : treeAt q stack ≠ []) (hqp : q <+: p) :
    treeAt p (overlaid mark q stack) ≠ [] ∧
      ∀ m ∈ treeAt p (overlaid mark q stack), ∃ a, m.2 = mark a := by
  obtain ⟨a, rest, hrooted⟩ := treeAt_rooted q stack hne
  have hfold : treeAt p (overlaid mark q stack) =
      (place q (relabel mark rest)).foldl (grow p) [([], mark a)] := by
    have hroot : grow p (treeAt p stack) (q ++ [], mark a) = [([], mark a)] :=
      grow_above (by rwa [List.append_nil])
    rw [overlaid, hrooted, treeAt_append]
    exact congrArg (fun acc => (place q (relabel mark rest)).foldl (grow p) acc) hroot
  rw [hfold]
  refine ⟨foldl_grow_ne_nil (List.cons_ne_nil _ _),
    forall_mem_foldl_grow (P := fun b => ∃ a, b = mark a) (fun m hm => ?_) ?_⟩
  · exact ⟨a, congrArg Prod.snd (List.mem_singleton.mp hm)⟩
  · intro m hm
    obtain ⟨m', hm', rfl⟩ := List.mem_map.mp hm
    obtain ⟨m'', -, rfl⟩ := List.mem_map.mp hm'
    exact ⟨m''.2, rfl⟩

theorem treeAt_overlaid_below (hpq : p <+: q) (hqp : ¬q <+: p) (hne : treeAt p stack ≠ []) :
    treeAt p (overlaid mark q stack) = treeAt p stack ++
      place (q.drop p.length) (relabel mark (treeAt q stack)) := by
  rw [overlaid, treeAt_append, foldl_grow_place_below hpq hqp hne]

theorem treeAt_overlaid_apart (hpq : ¬p <+: q) (hqp : ¬q <+: p) :
    treeAt p (overlaid mark q stack) = treeAt p stack := by
  rw [overlaid, treeAt_append, foldl_grow_place_apart hqp hpq]

/-- What is copied once is not copied again, nor is anything with it. -/
theorem not_ready_overlaid (hmark : ∀ a, ¬good (mark a)) (hne : treeAt q stack ≠ [])
    (h : p <+: q ∨ q <+: p) : ¬Ready good (treeAt p (overlaid mark q stack)) := by
  rintro ⟨hne', hall⟩
  have hmarked : ∀ m ∈ treeAt p (overlaid mark q stack), ¬∃ a, m.2 = mark a := by
    rintro m hm ⟨a, ha⟩
    have hgood := hall m hm
    rw [ha] at hgood
    exact hmark a hgood
  by_cases hqp : q <+: p
  · obtain ⟨m, hm⟩ := List.exists_mem_of_ne_nil _ hne'
    exact hmarked m hm ((treeAt_overlaid_above hne hqp).2 m hm)
  have hpq := h.resolve_right hqp
  have hnep : treeAt p stack ≠ [] := by
    intro hnil
    rw [overlaid, treeAt_append, hnil, foldl_grow_place_nil hqp] at hne'
    exact hne' rfl
  rw [treeAt_overlaid_below hpq hqp hnep] at hmarked
  obtain ⟨m, hm⟩ := List.exists_mem_of_ne_nil _ hne
  refine hmarked (q.drop p.length ++ m.1, mark m.2) (List.mem_append_right _ ?_) ⟨m.2, rfl⟩
  exact List.mem_map.mpr ⟨(m.1, mark m.2), List.mem_map.mpr ⟨m, hm, rfl⟩, rfl⟩

theorem shown_overlaid (hne : treeAt q stack ≠ []) (hqp : q <+: p) :
    ∃ a, shown p (overlaid mark q stack) = some (mark a) := by
  obtain ⟨hne', hall⟩ := treeAt_overlaid_above hne hqp
  obtain ⟨a, rest, hrooted⟩ := treeAt_rooted p _ hne'
  obtain ⟨b, hb⟩ := hall ([], a) (by rw [hrooted]; exact List.mem_cons_self)
  refine ⟨b, ?_⟩
  rw [shown, hrooted, ← hb]
  rfl

theorem shown_overlaid_of_not (hqp : ¬q <+: p) :
    shown p (overlaid mark q stack) = shown p stack := by
  by_cases hpq : p <+: q
  · cases hnil : treeAt p stack with
    | nil => rw [shown, shown, overlaid, treeAt_append, hnil, foldl_grow_place_nil hqp]
    | cons m rest =>
        have hne : treeAt p stack ≠ [] := by
          rw [hnil]
          exact List.cons_ne_nil _ _
        rw [shown, shown, treeAt_overlaid_below hpq hqp hne, hnil]
        rfl
  · rw [shown, shown, treeAt_overlaid_apart hpq hqp]

theorem ready_of_isPrefix (hpq : p <+: q) (h : Ready good (treeAt p stack)) :
    Ready good (treeAt q stack) := by
  refine ⟨treeAt_ne_nil_of_isPrefix hpq h.1, fun m hm => ?_⟩
  obtain ⟨m', hm', heq⟩ := mem_treeAt_of_isPrefix hpq h.1 hm
  rw [← heq]
  exact h.2 m' hm'

/-- Whatever was not touched by an overlay is as it was. -/
theorem treeAt_of_ready_overlaid (hmark : ∀ a, ¬good (mark a)) (hne : treeAt q stack ≠ [])
    (h : Ready good (treeAt p (overlaid mark q stack))) :
    treeAt p (overlaid mark q stack) = treeAt p stack := by
  have hapart : ¬(p <+: q ∨ q <+: p) := fun hor => not_ready_overlaid hmark hne hor h
  exact treeAt_overlaid_apart (fun hpq => hapart (.inl hpq)) fun hqp => hapart (.inr hqp)

end Overlays

section Sequences

variable {κ α : Type} [DecidableEq κ] (good : α → Prop) [DecidablePred good] (mark : α → α)

def overlay (p : List κ) (stack : Stack κ α) : Stack κ α :=
  if Ready good (treeAt p stack) then overlaid mark p stack else stack

def overlayAll (places : List (List κ)) (stack : Stack κ α) : Stack κ α :=
  places.foldl (fun stack p => overlay good mark p stack) stack

/-- The places at which there was something to do. -/
def donePlaces : List (List κ) → Stack κ α → List (List κ)
  | [], _ => []
  | p :: places, stack =>
      if Ready good (treeAt p stack) then p :: donePlaces places (overlaid mark p stack)
      else donePlaces places stack

/-- A place whose tree can be changed, with no other one below it before it in the
list. -/
def Effective (places : List (List κ)) (stack : Stack κ α) (p : List κ) : Prop :=
  Ready good (treeAt p stack) ∧ places.find? (fun q => p <+: q) = some p

instance (places : List (List κ)) (stack : Stack κ α) (p : List κ) :
    Decidable (Effective good places stack p) := inferInstanceAs (Decidable (_ ∧ _))

variable {good mark} {p q : List κ} {stack : Stack κ α} {places : List (List κ)}

theorem ready_of_mem_donePlaces (hmark : ∀ a, ¬good (mark a))
    (h : p ∈ donePlaces good mark places stack) : Ready good (treeAt p stack) := by
  induction places generalizing stack with
  | nil => cases h
  | cons q places ih =>
      rw [donePlaces] at h
      split at h
      · next hq =>
          rcases List.mem_cons.mp h with rfl | h
          · exact hq
          · have hp := ih h
            rwa [treeAt_of_ready_overlaid hmark hq.1 hp] at hp
      · exact ih h

theorem find_of_mem_donePlaces (hmark : ∀ a, ¬good (mark a))
    (h : p ∈ donePlaces good mark places stack) :
    places.find? (fun q => p <+: q) = some p := by
  induction places generalizing stack with
  | nil => cases h
  | cons q places ih =>
      have hskip : ¬p <+: q → places.find? (fun q => p <+: q) = some p →
          (q :: places).find? (fun q => p <+: q) = some p := by
        intro hpq hfind
        rw [List.find?_cons_of_neg (by simpa using hpq), hfind]
      rw [donePlaces] at h
      split at h
      · next hq =>
          rcases List.mem_cons.mp h with rfl | h
          · exact List.find?_cons_of_pos (by simp)
          · refine hskip (fun hpq => ?_) (ih h)
            exact not_ready_overlaid hmark hq.1 (.inl hpq) (ready_of_mem_donePlaces hmark h)
      · next hq =>
          refine hskip (fun hpq => hq ?_) (ih h)
          exact ready_of_isPrefix hpq (ready_of_mem_donePlaces hmark h)

theorem effective_of_mem_donePlaces (hmark : ∀ a, ¬good (mark a))
    (h : p ∈ donePlaces good mark places stack) : Effective good places stack p :=
  ⟨ready_of_mem_donePlaces hmark h, find_of_mem_donePlaces hmark h⟩

/-- Where something could be done, it was done there or further up. -/
theorem exists_donePlace_of_effective (h : Effective good places stack p) :
    ∃ q ∈ donePlaces good mark places stack, q <+: p := by
  obtain ⟨hready, hfind⟩ := h
  induction places generalizing stack with
  | nil => cases hfind
  | cons q places ih =>
      rw [donePlaces]
      by_cases hpq : p <+: q
      · rw [List.find?_cons_of_pos (by simpa using hpq)] at hfind
        obtain rfl := Option.some.inj hfind
        rw [if_pos hready]
        exact ⟨q, List.mem_cons_self, List.prefix_refl q⟩
      rw [List.find?_cons_of_neg (by simpa using hpq)] at hfind
      split
      · by_cases hqp : q <+: p
        · exact ⟨q, List.mem_cons_self, hqp⟩
        · rw [← treeAt_overlaid_apart hpq hqp] at hready
          obtain ⟨r, hr, hrp⟩ := ih hready hfind
          exact ⟨r, List.mem_cons_of_mem _ hr, hrp⟩
      · exact ih hready hfind

theorem mem_overlayAll (hmark : ∀ a, ¬good (mark a)) {m : List κ × α} :
    m ∈ overlayAll good mark places stack ↔ m ∈ stack ∨
      ∃ q ∈ donePlaces good mark places stack, m ∈ place q (relabel mark (treeAt q stack)) := by
  induction places generalizing stack with
  | nil =>
      refine ⟨.inl, ?_⟩
      rintro (hm | ⟨q, hq, -⟩)
      · exact hm
      · cases hq
  | cons p places ih =>
      rw [overlayAll, List.foldl_cons, ← overlayAll, overlay, donePlaces]
      split
      · next hp =>
          have htree : ∀ q ∈ donePlaces good mark places (overlaid mark p stack),
              treeAt q (overlaid mark p stack) = treeAt q stack := fun q hq =>
            treeAt_of_ready_overlaid hmark hp.1 (ready_of_mem_donePlaces hmark hq)
          rw [ih, overlaid, List.mem_append, ← overlaid, or_assoc]
          refine or_congr_right ?_
          simp only [List.mem_cons, exists_eq_or_imp]
          refine or_congr_right (exists_congr fun q => and_congr_right fun hq => ?_)
          rw [htree q hq]
      · exact ih

theorem shown_overlayAll (good : α → Prop) [DecidablePred good] (mark : α → α)
    (places : List (List κ)) (stack : Stack κ α) (p : List κ) :
    ((∃ a, shown p (overlayAll good mark places stack) = some (mark a)) ∧
        ∃ q ∈ donePlaces good mark places stack, q <+: p) ∨
      shown p (overlayAll good mark places stack) = shown p stack ∧
        ∀ q ∈ donePlaces good mark places stack, ¬q <+: p := by
  induction places generalizing stack with
  | nil => exact .inr ⟨rfl, fun q hq => (by cases hq)⟩
  | cons r places ih =>
      rw [overlayAll, List.foldl_cons, ← overlayAll, overlay, donePlaces]
      split
      · next hr =>
          rcases ih (overlaid mark r stack) with ⟨hshown, q, hq, hqp⟩ | ⟨hshown, hnone⟩
          · exact .inl ⟨hshown, q, List.mem_cons_of_mem _ hq, hqp⟩
          · rw [hshown]
            by_cases hrp : r <+: p
            · exact .inl ⟨shown_overlaid hr.1 hrp, r, List.mem_cons_self, hrp⟩
            · refine .inr ⟨shown_overlaid_of_not hrp, fun q hq => ?_⟩
              rcases List.mem_cons.mp hq with rfl | hq
              · exact hrp
              · exact hnone q hq
      · exact ih stack

/-- What is shown at a place is changed if and only if the place is at or below an
effective one. -/
theorem shown_cases (hmark : ∀ a, ¬good (mark a)) (places : List (List κ)) (stack : Stack κ α)
    (p : List κ) :
    ((∃ a, shown p (overlayAll good mark places stack) = some (mark a)) ∧
        ∃ q, Effective good places stack q ∧ q <+: p) ∨
      shown p (overlayAll good mark places stack) = shown p stack ∧
        ∀ q, Effective good places stack q → ¬q <+: p := by
  rcases shown_overlayAll good mark places stack p with ⟨hshown, q, hq, hqp⟩ | ⟨hshown, hnone⟩
  · exact .inl ⟨hshown, q, effective_of_mem_donePlaces hmark hq, hqp⟩
  · refine .inr ⟨hshown, fun q heffective hqp => ?_⟩
    obtain ⟨r, hr, hrq⟩ : ∃ r ∈ donePlaces good mark places stack, r <+: q :=
      exists_donePlace_of_effective heffective
    exact hnone r hr (hrq.trans hqp)

/-- There is nothing in the end but the first mounts and changed copies of the trees
at effective places. -/
theorem mem_of_mem_overlayAll (hmark : ∀ a, ¬good (mark a)) {m : List κ × α}
    (h : m ∈ overlayAll good mark places stack) : m ∈ stack ∨
      ∃ q, Effective good places stack q ∧
        ∃ m' ∈ place q (treeAt q stack), m = (m'.1, mark m'.2) := by
  rcases (mem_overlayAll hmark).mp h with hm | ⟨q, hq, hm⟩
  · exact .inl hm
  · obtain ⟨m', hm', rfl⟩ := List.mem_map.mp hm
    obtain ⟨m'', hm'', rfl⟩ := List.mem_map.mp hm'
    exact .inr ⟨q, effective_of_mem_donePlaces hmark hq, (q ++ m''.1, m''.2),
      List.mem_map.mpr ⟨m'', hm'', rfl⟩, rfl⟩

/-- Below its root the tree at an effective place ends up changed. -/
theorem mem_overlayAll_of_effective (hmark : ∀ a, ¬good (mark a)) {m : List κ × α}
    (h : Effective good places stack p) (hm : m ∈ treeAt p stack) (hbelow : m.1 ≠ []) :
    (p ++ m.1, mark m.2) ∈ overlayAll good mark places stack := by
  obtain ⟨q, hq, hqp⟩ : ∃ q ∈ donePlaces good mark places stack, q <+: p :=
    exists_donePlace_of_effective h
  have hplace := mem_place_of_isPrefix hqp (ready_of_mem_donePlaces hmark hq).1 hm hbelow
  obtain ⟨m', hm', heq⟩ := List.mem_map.mp hplace
  rw [mem_overlayAll hmark]
  refine .inr ⟨q, hq, ?_⟩
  refine List.mem_map.mpr ⟨(m'.1, mark m'.2), List.mem_map.mpr ⟨m', hm', rfl⟩, ?_⟩
  obtain ⟨hplaceEq, hlabel⟩ := Prod.mk.inj heq
  rw [← hplaceEq, ← hlabel]

end Sequences

end Cntr.MountStack
