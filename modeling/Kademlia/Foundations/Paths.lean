import Mathlib.Data.List.Basic
import Mathlib.Data.List.Infix
import Mathlib.Tactic.SplitIfs

/-!
Paths and the places they lead to.

A place is the list of the directories on the way to it, from the root. A path
is followed component by component; `up` leads to the parent, and the root is
its own parent. Without its starting point a path comes down to a trail: so many
steps up, then so many names down. Whether it ends inside the directory that it
starts from depends on the trail and, if that goes up, on the last names of the
directory.
-/

namespace Kademlia.Foundations.Paths

section Trails

variable {α : Type}

def Inside (dir place : List α) : Prop := dir <+: place ∧ dir ≠ place

theorem inside_append_left_iff (front : List α) {dir place : List α} :
    Inside (front ++ dir) (front ++ place) ↔ Inside dir place := by
  rw [Inside, Inside, List.prefix_append_right_inj, Ne, List.append_cancel_left_eq]

theorem inside_nil_iff {place : List α} : Inside [] place ↔ place ≠ [] := by
  rw [Inside, and_iff_right List.nil_prefix, ne_comm]

/-- How often a path leads up from its start, and what it leads down from there. -/
structure Trail (α : Type) where
  ups : ℕ
  down : List α
  deriving DecidableEq

def Trail.left (t : Trail α) (dir : List α) : List α := dir.drop (dir.length - t.ups)

/-- The trail comes back to the directory that it starts from and ends below it: it goes down
through all that it has left before. -/
def Trail.Enters (t : Trail α) (dir : List α) : Prop := Inside (t.left dir) t.down

/-- A trail that never goes up ends below its start unless it ends there. -/
theorem Trail.enters_iff_of_ups_eq_zero {t : Trail α} (h : t.ups = 0) (dir : List α) :
    t.Enters dir ↔ t.down ≠ [] := by
  rw [Enters, left, h, Nat.sub_zero, List.drop_length, inside_nil_iff]

variable [DecidableEq α] (up : α)

def walk (dir : List α) (step : α) : List α := if step = up then dir.dropLast else dir ++ [step]

def Trail.add (t : Trail α) (step : α) : Trail α :=
  if step = up then
    -- a step up takes back the last name, if there is one
    if t.down = [] then ⟨t.ups + 1, []⟩ else ⟨t.ups, t.down.dropLast⟩
  else ⟨t.ups, t.down ++ [step]⟩

def trail (steps : List α) : Trail α := steps.foldl (Trail.add up) ⟨0, []⟩

theorem foldl_walk_eq (dir steps : List α) :
    steps.foldl (walk up) dir =
      dir.take (dir.length - (trail up steps).ups) ++ (trail up steps).down := by
  induction steps using List.reverseRecOn with
  | nil => simp [trail]
  | append_singleton steps step ih =>
      rw [trail, List.foldl_append, List.foldl_append, ih, ← trail]
      generalize trail up steps = t
      rw [List.foldl_cons, List.foldl_nil, List.foldl_cons, List.foldl_nil, walk, Trail.add]
      split_ifs with hup hdown
      · rw [hdown, List.append_nil, List.append_nil, List.dropLast_eq_take, List.take_take,
          List.length_take]
        congr 1
        dsimp only
        omega
      · exact List.dropLast_append_of_ne_nil hdown
      · exact List.append_assoc _ _ _

theorem inside_foldl_walk_iff (dir steps : List α) :
    Inside dir (steps.foldl (walk up) dir) ↔ (trail up steps).Enters dir := by
  have hsplit := List.take_append_drop (dir.length - (trail up steps).ups) dir
  rw [foldl_walk_eq, Trail.Enters, Trail.left]
  nth_rewrite 1 [← hsplit]
  exact inside_append_left_iff _

end Trails

/-! ### Path names -/

section Names

variable {β : Type} [DecidableEq β] (slash dot : β)

/-- The components of a path name, of which empty ones and `.` lead nowhere. -/
def components (path : List β) : List (List β) :=
  (path.splitOn slash).filter fun name => name ≠ [] ∧ name ≠ [dot]

/-- The place of a path name; one that does not start with a slash is followed from `cwd`. -/
def resolve (cwd : List (List β)) (path : List β) : List (List β) :=
  (components slash dot path).foldl (walk [dot, dot]) (if path.head? = some slash then [] else cwd)

def trailOf (path : List β) : Trail (List β) := trail [dot, dot] (components slash dot path)

theorem components_append (dir name : List β) :
    components slash dot (dir ++ slash :: name) =
      components slash dot dir ++ components slash dot name := by
  rw [components, List.splitOn_append_cons_self, List.filter_append]
  rfl

variable {dir : List β}

theorem resolve_append (hdir : dir ≠ []) (cwd : List (List β)) (name : List β) :
    resolve slash dot cwd (dir ++ slash :: name) =
      (components slash dot name).foldl (walk [dot, dot]) (resolve slash dot cwd dir) := by
  have hhead : (dir ++ slash :: name).head? = dir.head? := List.head?_append_of_ne_nil _ hdir
  rw [resolve, hhead, components_append, List.foldl_append]
  rfl

/-- A name put behind a directory leads below it exactly if its trail does. -/
theorem inside_resolve_append_iff (hdir : dir ≠ []) (cwd : List (List β)) (name : List β) :
    Inside (resolve slash dot cwd dir) (resolve slash dot cwd (dir ++ slash :: name)) ↔
      (trailOf slash dot name).Enters (resolve slash dot cwd dir) := by
  rw [resolve_append slash dot hdir]
  exact inside_foldl_walk_iff _ _ _

/-- Different names in a directory other than the root lead to different places. -/
theorem resolve_append_injective (hdir : dir ≠ []) {cwd : List (List β)}
    (hplace : resolve slash dot cwd dir ≠ []) {name name' : List β} (hne : name ≠ [])
    (hne' : name' ≠ []) (hslash : slash ∉ name) (hslash' : slash ∉ name')
    (h : resolve slash dot cwd (dir ++ slash :: name) =
      resolve slash dot cwd (dir ++ slash :: name')) : name = name' := by
  have hpos := List.length_pos_iff.mpr hplace
  have hsingle {name : List β} (hne : name ≠ []) (hslash : slash ∉ name) :
      components slash dot name = if name = [dot] then [] else [name] := by
    rw [components, List.splitOn_eq_singleton hslash]
    split_ifs with hdot <;> simp [hne, hdot]
  rw [resolve_append slash dot hdir, resolve_append slash dot hdir, hsingle hne hslash,
    hsingle hne' hslash'] at h
  generalize resolve slash dot cwd dir = place at hpos h
  -- the places are this one, its parent and the ones right below it
  have hlen := congrArg List.length h
  split_ifs at h hlen with hdot hdot' hdot' <;>
    simp only [List.foldl_cons, List.foldl_nil, walk] at h hlen
  · rw [hdot, hdot']
  · split_ifs at h hlen with hup
    · rw [List.length_dropLast] at hlen
      omega
    · rw [List.length_append, List.length_singleton] at hlen
      omega
  · split_ifs at h hlen with hup
    · rw [List.length_dropLast] at hlen
      omega
    · rw [List.length_append, List.length_singleton] at hlen
      omega
  · split_ifs at h hlen with hup hup' hup'
    · rw [hup, hup']
    · rw [List.length_dropLast, List.length_append, List.length_singleton] at hlen
      omega
    · rw [List.length_dropLast, List.length_append, List.length_singleton] at hlen
      omega
    · exact List.singleton_injective (List.append_cancel_left h)

end Names

end Kademlia.Foundations.Paths
