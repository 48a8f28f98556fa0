import Mathlib.Data.List.Infix

/-!
Path resolution in a tree of files with symlinks. A lookup has a scope: it is where
absolute symlinks start and what `..` does not leave.
-/

namespace Cntr.PathResolution

/-- A component of a path: `.`, `..` or a name. -/
inductive Step (N : Type) where
  | here
  | up
  | down (name : N)
  deriving DecidableEq

structure Link (N : Type) where
  absolute : Bool
  steps : List (Step N)
  deriving DecidableEq

inductive Node (N : Type) where
  | directory
  | file
  | symlink (link : Link N)
  deriving DecidableEq

/-- The names on the way from the top of the tree. -/
abbrev Position (N : Type) : Type := List N

structure FileTree (N : Type) where
  node : Position N → Option (Node N)
  top : node [] = some .directory
  parent : ∀ pos name, node (pos ++ [name]) ≠ none → node pos = some .directory

variable {N : Type} [DecidableEq N]

def climb (scope cur : Position N) : Position N := if cur = scope then cur else cur.dropLast

namespace FileTree

/-- The components up to the first symlink, from which `follow` goes on. -/
def walk (tree : FileTree N) (scope : Position N)
    (follow : Position N → List (Step N) → Option (Position N)) :
    Position N → List (Step N) → Option (Position N)
  | cur, [] => some cur
  | cur, .here :: rest => tree.walk scope follow cur rest
  | cur, .up :: rest => tree.walk scope follow (climb scope cur) rest
  | cur, .down name :: rest =>
      match tree.node (cur ++ [name]) with
      | none => none
      | some .directory => tree.walk scope follow (cur ++ [name]) rest
      | some .file => if rest = [] then some (cur ++ [name]) else none
      | some (.symlink link) => follow (if link.absolute then scope else cur) (link.steps ++ rest)

/-- What a path leads to, over as many symlinks as `budget` allows. -/
def resolve (tree : FileTree N) (scope : Position N) :
    Nat → Position N → List (Step N) → Option (Position N)
  | 0 => tree.walk scope fun _ _ => none
  | budget + 1 => tree.walk scope (tree.resolve scope budget)

end FileTree

variable {tree : FileTree N} {scope cur pos : Position N} {steps : List (Step N)}

theorem isPrefix_climb (h : scope <+: cur) : scope <+: climb scope cur := by
  rw [climb]
  split
  · exact h
  · next hne =>
      obtain ⟨suffix, rfl⟩ := h
      have hsuffix : suffix ≠ [] := by
        rintro rfl
        exact hne (List.append_nil scope)
      rw [List.dropLast_append_of_ne_nil hsuffix]
      exact List.prefix_append _ _

namespace FileTree

/-- What every step of a lookup keeps. -/
structure Kept (tree : FileTree N) (scope : Position N) (P : Position N → Prop) : Prop where
  start : P scope
  climb : ∀ cur, P cur → P (climb scope cur)
  enter : ∀ cur name, P cur → tree.node (cur ++ [name]) = some .directory → P (cur ++ [name])

/-- A lookup ends where the steps have led it, or at a file there. -/
def Arrives (tree : FileTree N) (P : Position N → Prop) (pos : Position N) : Prop :=
  P pos ∨ ∃ cur name, P cur ∧ tree.node (cur ++ [name]) = some .file ∧ pos = cur ++ [name]

theorem walk_arrives {P : Position N → Prop} (hkept : tree.Kept scope P)
    {follow : Position N → List (Step N) → Option (Position N)}
    (hfollow : ∀ cur steps, P cur → follow cur steps = some pos → tree.Arrives P pos)
    (hcur : P cur) (h : tree.walk scope follow cur steps = some pos) : tree.Arrives P pos := by
  induction steps generalizing cur with
  | nil =>
      obtain rfl := Option.some.inj h
      exact .inl hcur
  | cons step rest ih =>
      cases step with
      | here => exact ih hcur h
      | up => exact ih (hkept.climb cur hcur) h
      | down name =>
          rw [walk] at h
          split at h
          · cases h
          · next hnode => exact ih (hkept.enter cur name hcur hnode) h
          · next hnode =>
              split at h
              · obtain rfl := Option.some.inj h
                exact .inr ⟨cur, name, hcur, hnode, rfl⟩
              · cases h
          · next link _ =>
              refine hfollow _ _ ?_ h
              cases link.absolute with
              | true => exact hkept.start
              | false => exact hcur

theorem resolve_arrives {P : Position N → Prop} (hkept : tree.Kept scope P) {budget : Nat}
    (hcur : P cur) (h : tree.resolve scope budget cur steps = some pos) : tree.Arrives P pos := by
  induction budget generalizing cur steps with
  | zero => exact walk_arrives hkept (fun _ _ _ hnone => by cases hnone) hcur h
  | succ budget ih => exact walk_arrives hkept (fun _ _ => ih) hcur h

/-- The tree in which these are all the files below the top. -/
def ofFiles (files : List (Position N × Node N))
    (closed : ∀ file ∈ files, file.1.dropLast = [] ∨
      (files.find? (·.1 = file.1.dropLast)).map Prod.snd = some .directory) : FileTree N where
  node pos := if pos = [] then some .directory else (files.find? (·.1 = pos)).map Prod.snd
  top := if_pos rfl
  parent := by
    intro pos name h
    have hne : pos ++ [name] ≠ [] := List.append_ne_nil_of_right_ne_nil _ (List.cons_ne_nil _ _)
    rw [if_neg hne] at h
    obtain ⟨node, hnode⟩ := Option.ne_none_iff_exists'.mp h
    obtain ⟨file, hfind, -⟩ := Option.map_eq_some_iff.mp hnode
    have hfile : file.1 = pos ++ [name] := of_decide_eq_true (List.find?_some hfind :)
    have hclosed := closed file (List.mem_of_find?_eq_some hfind)
    rw [hfile, List.dropLast_concat] at hclosed
    split
    · rfl
    · next hpos => exact hclosed.resolve_left hpos

/-- A lookup does not leave its scope. -/
theorem resolve_inScope {budget : Nat} (hcur : scope <+: cur)
    (h : tree.resolve scope budget cur steps = some pos) : scope <+: pos := by
  have hkept : tree.Kept scope fun cur => scope <+: cur :=
    ⟨List.prefix_rfl, fun _ => isPrefix_climb,
      fun _ _ hcur _ => hcur.trans (List.prefix_append _ _)⟩
  rcases resolve_arrives hkept hcur h with hpos | ⟨cur', name, hcur', -, rfl⟩
  · exact hpos
  · exact hcur'.trans (List.prefix_append _ _)

theorem node_climb (h : tree.node cur = some .directory) :
    tree.node (climb scope cur) = some .directory := by
  rw [climb]
  split
  · exact h
  · rcases List.eq_nil_or_concat cur with rfl | ⟨parent, name, rfl⟩
    · exact h
    · rw [List.concat_eq_append, List.dropLast_concat]
      refine tree.parent parent name ?_
      rw [← List.concat_eq_append, h]
      exact Option.some_ne_none _

theorem resolve_node {budget : Nat} (hscope : tree.node scope = some .directory)
    (hcur : tree.node cur = some .directory)
    (h : tree.resolve scope budget cur steps = some pos) :
    tree.node pos = some .directory ∨ tree.node pos = some .file := by
  have hkept : tree.Kept scope fun cur => tree.node cur = some .directory :=
    ⟨hscope, fun _ => node_climb, fun _ _ _ => id⟩
  rcases resolve_arrives hkept hcur h with hpos | ⟨cur', name, -, hnode, rfl⟩
  · exact .inl hpos
  · exact .inr hnode

end FileTree

section Lexical

variable {N : Type} {cur : Position N}

/-- A step that takes no notice of the files. -/
def move (cur : Position N) : Step N → Position N
  | .here => cur
  | .up => cur.dropLast
  | .down name => cur ++ [name]

def lexical (cur : Position N) (steps : List (Step N)) : Position N := steps.foldl move cur

theorem lexical_append (cur : Position N) (steps steps' : List (Step N)) :
    lexical cur (steps ++ steps') = lexical (lexical cur steps) steps' :=
  List.foldl_append

/-- What is left of some steps when each `..` takes back the name before it. -/
structure Reduced (N : Type) where
  climbs : Nat
  names : List N

namespace Reduced

def move (reduced : Reduced N) : Step N → Reduced N
  | .here => reduced
  | .up =>
      match reduced.names with
      | [] => { reduced with climbs := reduced.climbs + 1 }
      | name :: names => { reduced with names := (name :: names).dropLast }
  | .down name => { reduced with names := reduced.names ++ [name] }

/-- Where the reduced steps lead to. -/
def goFrom (reduced : Reduced N) (cur : Position N) : Position N :=
  cur.take (cur.length - reduced.climbs) ++ reduced.names

theorem goFrom_move (reduced : Reduced N) (step : Step N) :
    (reduced.move step).goFrom cur = PathResolution.move (reduced.goFrom cur) step := by
  obtain ⟨climbs, names⟩ := reduced
  cases step with
  | here => rfl
  | down name => exact (List.append_assoc _ _ _).symm
  | up =>
      cases names with
      | nil =>
          show cur.take (cur.length - (climbs + 1)) ++ [] =
            (cur.take (cur.length - climbs) ++ []).dropLast
          have hlength : (cur.take (cur.length - climbs)).length = cur.length - climbs := by
            rw [List.length_take]
            omega
          rw [List.append_nil, List.append_nil, List.dropLast_eq_take, hlength, List.take_take]
          congr 1
          omega
      | cons name names =>
          exact (List.dropLast_append_of_ne_nil (List.cons_ne_nil name names)).symm

end Reduced

def reduce (steps : List (Step N)) : Reduced N := steps.foldl Reduced.move ⟨0, []⟩

theorem foldl_move_up (climbs n : Nat) :
    (List.replicate n Step.up).foldl Reduced.move (⟨climbs, []⟩ : Reduced N) =
      ⟨climbs + n, []⟩ := by
  induction n generalizing climbs with
  | zero => rfl
  | succ n ih =>
      rw [List.replicate_succ, List.foldl_cons]
      exact (ih (climbs + 1)).trans (by rw [Nat.add_assoc, Nat.add_comm 1 n])

theorem foldl_move_down (climbs : Nat) (before names : List N) :
    (names.map Step.down).foldl Reduced.move (⟨climbs, before⟩ : Reduced N) =
      ⟨climbs, before ++ names⟩ := by
  induction names generalizing before with
  | nil => exact congrArg _ (List.append_nil before).symm
  | cons name names ih =>
      rw [List.map_cons, List.foldl_cons]
      exact (ih (before ++ [name])).trans (by rw [List.append_assoc]; rfl)

theorem reduce_ups_downs (climbs : Nat) (names : List N) :
    reduce (List.replicate climbs .up ++ names.map .down) = ⟨climbs, names⟩ := by
  rw [reduce, List.foldl_append, foldl_move_up, foldl_move_down, Nat.zero_add, List.nil_append]

theorem lexical_eq (cur : Position N) (steps : List (Step N)) :
    lexical cur steps = (reduce steps).goFrom cur := by
  have hfold : ∀ reduced : Reduced N, steps.foldl move (reduced.goFrom cur) =
      (steps.foldl Reduced.move reduced).goFrom cur := by
    induction steps with
    | nil => exact fun _ => rfl
    | cons step steps ih =>
        intro reduced
        rw [List.foldl_cons, List.foldl_cons, ← Reduced.goFrom_move, ih]
  have hstart : (⟨0, []⟩ : Reduced N).goFrom cur = cur := by
    rw [Reduced.goFrom, List.append_nil, Nat.sub_zero, List.take_length]
  rw [lexical, reduce, ← hfold, hstart]

/-- What was climbed out of is entered again if the names spell it. -/
theorem isPrefix_lexical_iff (cur : Position N) (steps : List (Step N)) :
    cur <+: lexical cur steps ↔
      cur.drop (cur.length - (reduce steps).climbs) <+: (reduce steps).names := by
  rw [lexical_eq, Reduced.goFrom]
  have hsplit := List.take_append_drop (cur.length - (reduce steps).climbs) cur
  calc
    cur <+: _ ↔ cur.take (cur.length - (reduce steps).climbs) ++
        cur.drop (cur.length - (reduce steps).climbs) <+:
        cur.take (cur.length - (reduce steps).climbs) ++ (reduce steps).names := by rw [hsplit]
    _ ↔ _ := List.prefix_append_right_inj _

end Lexical

end Cntr.PathResolution
