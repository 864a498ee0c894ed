import Mathlib.Data.List.Basic
import Mathlib.Order.Nat
import Mathlib.Tactic.SplitIfs

/-!
A tree of files, directories and symbolic links.

Directories name nodes by number, so that one file can have several names. A
path is followed step by step, symbolic links included, and leads to a node or
to a name that is still free in its directory. What was found once is found
again as long as no name is taken away.
-/

namespace Kademlia.Foundations.FileTree

inductive Step (α : Type)
  | stay
  | up
  | name (name : α)
  deriving DecidableEq

structure Path (α : Type) where
  absolute : Bool
  steps : List (Step α)

inductive Node (α β : Type)
  | file (contents : β)
  | dir (parent : ℕ) (entries : α → Option ℕ)
  | link (target : Path α)

/-- The nodes by their numbers, of which those from `next` on are free. -/
structure Tree (α β : Type) where
  nodes : ℕ → Option (Node α β)
  root : ℕ
  cwd : ℕ
  next : ℕ
  fresh : ∀ i, next ≤ i → nodes i = none

inductive Spot (α : Type)
  | node (i : ℕ)
  | absent (dir : ℕ) (name : α)
  deriving DecidableEq

variable {α β : Type}

/-! ### Following a path -/

namespace Tree

variable (t : Tree α β)

/-- Go on from a node; `follow` is what becomes of a link, from the directory it is in. -/
def walkFrom (follow : ℕ → Path α → List (Step α) → Option (Spot α)) :
    ℕ → List (Step α) → Option (Spot α)
  | i, [] => some (.node i)
  | i, step :: steps =>
      match t.nodes i with
      | some (.dir parent entries) =>
          match step with
          | .stay => walkFrom follow i steps
          | .up => walkFrom follow parent steps
          | .name name =>
              match entries name with
              | none => if steps.isEmpty then some (.absent i name) else none
              | some j =>
                  match t.nodes j with
                  | some (.link target) => follow i target steps
                  | _ => walkFrom follow j steps
      | _ => none

def start (path : Path α) (dir : ℕ) : ℕ := if path.absolute then t.root else dir

/-- Go on from a node, through at most `links` symbolic links. -/
def walk : ℕ → ℕ → List (Step α) → Option (Spot α)
  | 0 => t.walkFrom fun _ _ _ => none
  | links + 1 => t.walkFrom fun i target steps =>
      walk links (t.start target i) (target.steps ++ steps)

/-- As many links are followed as Linux does. -/
def lookup (path : Path α) : Option (Spot α) := t.walk 40 (t.start path t.cwd) path.steps

def fileAt (i : ℕ) : Option β :=
  match t.nodes i with
  | some (.file contents) => some contents
  | _ => none

def read (path : Path α) : Option β :=
  match t.lookup path with
  | some (.node i) => t.fileAt i
  | _ => none

end Tree

/-! ### Changes -/

def Node.store (contents : β) : Node α β → Node α β
  | .file _ => .file contents
  | node => node

def Node.addEntry [DecidableEq α] (name : α) (i : ℕ) : Node α β → Node α β
  | .dir parent entries => .dir parent (Function.update entries name (some i))
  | node => node

namespace Tree

def write (t : Tree α β) (i : ℕ) (contents : β) : Tree α β where
  nodes := Function.update t.nodes i ((t.nodes i).map (Node.store contents))
  root := t.root
  cwd := t.cwd
  next := t.next
  fresh j hj := by
    rcases eq_or_ne j i with rfl | hne
    · rw [Function.update_self, t.fresh j hj]
      rfl
    · rw [Function.update_of_ne hne, t.fresh j hj]

variable [DecidableEq α]

def create (t : Tree α β) (d : ℕ) (name : α) (node : Node α β) : Tree α β where
  nodes := Function.update
    (Function.update t.nodes d ((t.nodes d).map (Node.addEntry name t.next))) t.next (some node)
  root := t.root
  cwd := t.cwd
  next := t.next + 1
  fresh j hj := by
    have hfree := t.fresh j (by omega)
    rw [Function.update_of_ne (by omega)]
    rcases eq_or_ne j d with rfl | hne
    · rw [Function.update_self, hfree]
      rfl
    · rw [Function.update_of_ne hne, hfree]

/-- `mkdir`; the last component has to be a name that is free. -/
def makeDir (t : Tree α β) (path : Path α) : Option (Tree α β) :=
  match path.steps.getLast? with
  | some (.name name) =>
      match t.walk 40 (t.start path t.cwd) path.steps.dropLast with
      | some (.node d) =>
          match t.nodes d with
          | some (.dir _ entries) =>
              if (entries name).isNone then some (t.create d name (.dir d fun _ => none)) else none
          | _ => none
      | _ => none
  | _ => none

/-- Open a file for writing: it is cut off, or made if there is none. The result is the tree
after that, and the number of the file. -/
def openWrite (t : Tree α β) (empty : β) (path : Path α) : Option (Tree α β × ℕ) :=
  match t.lookup path with
  | some (.node i) => if (t.fileAt i).isSome then some (t.write i empty, i) else none
  | some (.absent d name) => some (t.create d name (.file empty), t.next)
  | none => none

end Tree

section Nodes

variable (t : Tree α β) {i j : ℕ}

@[simp] theorem nodes_write_self (i : ℕ) (contents : β) :
    (t.write i contents).nodes i = (t.nodes i).map (Node.store contents) := Function.update_self ..

theorem nodes_write_of_ne (h : j ≠ i) (contents : β) :
    (t.write i contents).nodes j = t.nodes j := Function.update_of_ne h ..

variable [DecidableEq α]

@[simp] theorem nodes_create_next (d : ℕ) (name : α) (node : Node α β) :
    (t.create d name node).nodes t.next = some node := Function.update_self ..

theorem nodes_create_dir {d : ℕ} (h : d ≠ t.next) (name : α) (node : Node α β) :
    (t.create d name node).nodes d = (t.nodes d).map (Node.addEntry name t.next) :=
  (Function.update_of_ne h ..).trans (Function.update_self ..)

theorem nodes_create_of_ne {d : ℕ} (hnext : j ≠ t.next) (h : j ≠ d) (name : α)
    (node : Node α β) : (t.create d name node).nodes j = t.nodes j :=
  (Function.update_of_ne hnext ..).trans (Function.update_of_ne h ..)

end Nodes

/-! ### One step of a path -/

section Steps

variable {t : Tree α β} {follow : ℕ → Path α → List (Step α) → Option (Spot α)} {i j parent : ℕ}
  {entries : α → Option ℕ} {name : α} (hdir : t.nodes i = some (.dir parent entries))
include hdir

theorem walkFrom_stay (steps : List (Step α)) :
    t.walkFrom follow i (.stay :: steps) = t.walkFrom follow i steps := by
  rw [Tree.walkFrom, hdir]

theorem walkFrom_up (steps : List (Step α)) :
    t.walkFrom follow i (.up :: steps) = t.walkFrom follow parent steps := by
  rw [Tree.walkFrom, hdir]

theorem walkFrom_absent (hname : entries name = none) (steps : List (Step α)) :
    t.walkFrom follow i (.name name :: steps) =
      if steps.isEmpty then some (.absent i name) else none := by
  simp only [Tree.walkFrom, hdir, hname]

theorem walkFrom_link {target : Path α} (hname : entries name = some j)
    (hlink : t.nodes j = some (.link target)) (steps : List (Step α)) :
    t.walkFrom follow i (.name name :: steps) = follow i target steps := by
  simp only [Tree.walkFrom, hdir, hname, hlink]

theorem walkFrom_name (hname : entries name = some j)
    (hlink : ∀ target, t.nodes j ≠ some (.link target)) (steps : List (Step α)) :
    t.walkFrom follow i (.name name :: steps) = t.walkFrom follow j steps := by
  simp only [Tree.walkFrom, hdir, hname]

end Steps

/-- What the first step of a path that leads to `spot` can be, and where the rest goes on. -/
inductive Walks (t : Tree α β) (follow : ℕ → Path α → List (Step α) → Option (Spot α)) (i : ℕ)
    (spot : Spot α) : Step α → List (Step α) → Prop
  | stay {parent : ℕ} {entries : α → Option ℕ} {steps : List (Step α)}
      (hdir : t.nodes i = some (.dir parent entries))
      (hrest : t.walkFrom follow i steps = some spot) : Walks t follow i spot .stay steps
  | up {parent : ℕ} {entries : α → Option ℕ} {steps : List (Step α)}
      (hdir : t.nodes i = some (.dir parent entries))
      (hrest : t.walkFrom follow parent steps = some spot) : Walks t follow i spot .up steps
  | absent {parent : ℕ} {entries : α → Option ℕ} {name : α}
      (hdir : t.nodes i = some (.dir parent entries)) (hname : entries name = none)
      (hspot : spot = .absent i name) : Walks t follow i spot (.name name) []
  | link {parent j : ℕ} {entries : α → Option ℕ} {name : α} {target : Path α}
      {steps : List (Step α)} (hdir : t.nodes i = some (.dir parent entries))
      (hname : entries name = some j) (hlink : t.nodes j = some (.link target))
      (hrest : follow i target steps = some spot) : Walks t follow i spot (.name name) steps
  | name {parent j : ℕ} {entries : α → Option ℕ} {name : α} {steps : List (Step α)}
      (hdir : t.nodes i = some (.dir parent entries)) (hname : entries name = some j)
      (hlink : ∀ target, t.nodes j ≠ some (.link target))
      (hrest : t.walkFrom follow j steps = some spot) : Walks t follow i spot (.name name) steps

theorem walks_of_walkFrom {t : Tree α β}
    {follow : ℕ → Path α → List (Step α) → Option (Spot α)} {i : ℕ} {step : Step α}
    {steps : List (Step α)} {spot : Spot α}
    (h : t.walkFrom follow i (step :: steps) = some spot) : Walks t follow i spot step steps := by
  by_cases hisdir : ∃ parent entries, t.nodes i = some (.dir parent entries)
  · obtain ⟨parent, entries, hdir⟩ := hisdir
    cases step with
    | stay =>
        rw [walkFrom_stay hdir] at h
        exact .stay hdir h
    | up =>
        rw [walkFrom_up hdir] at h
        exact .up hdir h
    | name name =>
        cases hname : entries name with
        | none =>
            rw [walkFrom_absent hdir hname] at h
            split_ifs at h with hlast
            rw [List.isEmpty_iff.mp hlast]
            exact .absent hdir hname (Option.some.inj h).symm
        | some j =>
            by_cases hislink : ∃ target, t.nodes j = some (.link target)
            · obtain ⟨target, hlink⟩ := hislink
              rw [walkFrom_link hdir hname hlink] at h
              exact .link hdir hname hlink h
            · have hlink : ∀ target, t.nodes j ≠ some (.link target) :=
                fun target hlink => hislink ⟨target, hlink⟩
              rw [walkFrom_name hdir hname hlink] at h
              exact .name hdir hname hlink h
  · rw [Tree.walkFrom] at h
    split at h
    · next parent entries hdir => exact absurd ⟨parent, entries, hdir⟩ hisdir
    · cases h

/-! ### What is found again -/

/-- `t'` has all names of `t`, and the same links and directories. -/
structure Extends (t t' : Tree α β) : Prop where
  root_eq : t'.root = t.root
  cwd_eq : t'.cwd = t.cwd
  dir : ∀ i parent entries, t.nodes i = some (.dir parent entries) →
    ∃ entries', t'.nodes i = some (.dir parent entries') ∧
      ∀ name j, entries name = some j → entries' name = some j
  link : ∀ i target, t.nodes i = some (.link target) ↔ t'.nodes i = some (.link target)

/-- A path that leads to one spot leads to the other one in `t'`, where names have been taken. -/
inductive Found (t' : Tree α β) : Spot α → Spot α → Prop
  | node (i : ℕ) : Found t' (.node i) (.node i)
  | filled {d k parent : ℕ} {name : α} {entries : α → Option ℕ}
      (hdir : t'.nodes d = some (.dir parent entries)) (hname : entries name = some k)
      (hlink : ∀ target, t'.nodes k ≠ some (.link target)) : Found t' (.absent d name) (.node k)

variable {t t' : Tree α β} {spot spot' : Spot α}

theorem walkFrom_extends (h : Extends t t') (hfound : Found t' spot spot')
    {follow follow' : ℕ → Path α → List (Step α) → Option (Spot α)}
    (hfollow : ∀ i target steps, follow i target steps = some spot →
      follow' i target steps = some spot')
    (i : ℕ) (steps : List (Step α)) (hwalk : t.walkFrom follow i steps = some spot) :
    t'.walkFrom follow' i steps = some spot' := by
  induction steps generalizing i with
  | nil =>
      obtain rfl := Option.some.inj hwalk
      cases hfound
      rfl
  | cons step steps ih =>
      cases walks_of_walkFrom hwalk with
      | stay hdir hrest =>
          obtain ⟨entries', hdir', -⟩ := h.dir i _ _ hdir
          rw [walkFrom_stay hdir']
          exact ih i hrest
      | up hdir hrest =>
          obtain ⟨entries', hdir', -⟩ := h.dir i _ _ hdir
          rw [walkFrom_up hdir']
          exact ih _ hrest
      | absent hdir hname hspot =>
          subst hspot
          cases hfound with
          | filled hnew hentry hlink =>
              rw [walkFrom_name hnew hentry hlink]
              rfl
      | link hdir hname hlink hrest =>
          obtain ⟨entries', hdir', hentries⟩ := h.dir i _ _ hdir
          rw [walkFrom_link hdir' (hentries _ _ hname) ((h.link _ _).mp hlink)]
          exact hfollow i _ steps hrest
      | name hdir hname hlink hrest =>
          obtain ⟨entries', hdir', hentries⟩ := h.dir i _ _ hdir
          rw [walkFrom_name hdir' (hentries _ _ hname)
            fun target htarget => hlink target ((h.link _ _).mpr htarget)]
          exact ih _ hrest

theorem walk_extends (h : Extends t t') (hfound : Found t' spot spot') (links i : ℕ)
    (steps : List (Step α)) (hwalk : t.walk links i steps = some spot) :
    t'.walk links i steps = some spot' := by
  induction links generalizing i steps with
  | zero =>
      exact walkFrom_extends h hfound (fun _ _ _ hnone => absurd hnone (by simp)) i steps hwalk
  | succ links ih =>
      refine walkFrom_extends h hfound (fun j target rest hrest => ?_) i steps hwalk
      rw [Tree.start, h.root_eq]
      exact ih _ _ hrest

theorem lookup_extends (h : Extends t t') (hfound : Found t' spot spot') {path : Path α}
    (hlookup : t.lookup path = some spot) : t'.lookup path = some spot' := by
  rw [Tree.lookup, Tree.start, h.root_eq, h.cwd_eq]
  exact walk_extends h hfound _ _ _ hlookup

/-! ### The changes keep what there is -/

theorem Extends.refl (t : Tree α β) : Extends t t :=
  ⟨rfl, rfl, fun _ _ entries hdir => ⟨entries, hdir, fun _ _ hname => hname⟩, fun _ _ => Iff.rfl⟩

theorem Extends.trans {t'' : Tree α β} (h : Extends t t') (h' : Extends t' t'') :
    Extends t t'' := by
  refine ⟨h'.root_eq.trans h.root_eq, h'.cwd_eq.trans h.cwd_eq, fun i parent entries hdir => ?_,
    fun i target => (h.link i target).trans (h'.link i target)⟩
  obtain ⟨entries', hdir', hentries⟩ := h.dir i parent entries hdir
  obtain ⟨entries'', hdir'', hentries'⟩ := h'.dir i parent entries' hdir'
  exact ⟨entries'', hdir'', fun name j hname => hentries' name j (hentries name j hname)⟩

theorem extends_write (t : Tree α β) (i : ℕ) (contents : β) : Extends t (t.write i contents) := by
  refine ⟨rfl, rfl, fun j parent entries hdir => ⟨entries, ?_, fun _ _ hname => hname⟩,
    fun j target => ?_⟩
  · rcases eq_or_ne j i with rfl | hne
    · rw [nodes_write_self, hdir]
      rfl
    · rw [nodes_write_of_ne t hne, hdir]
  · rcases eq_or_ne j i with rfl | hne
    · rw [nodes_write_self]
      cases t.nodes j with
      | none => simp
      | some node => cases node <;> simp [Node.store]
    · rw [nodes_write_of_ne t hne]

def Free (t : Tree α β) (d : ℕ) (name : α) : Prop :=
  ∃ parent entries, t.nodes d = some (.dir parent entries) ∧ entries name = none

theorem Free.lt {d : ℕ} {name : α} (h : Free t d name) : d < t.next := by
  obtain ⟨parent, entries, hdir, -⟩ := h
  by_contra hge
  rw [t.fresh d (not_lt.mp hge)] at hdir
  cases hdir

theorem free_of_walkFrom {follow : ℕ → Path α → List (Step α) → Option (Spot α)} {d : ℕ}
    {name : α} (hfollow : ∀ i target steps, follow i target steps = some (.absent d name) →
      Free t d name) (i : ℕ) (steps : List (Step α))
    (h : t.walkFrom follow i steps = some (.absent d name)) : Free t d name := by
  induction steps generalizing i with
  | nil => cases h
  | cons step steps ih =>
      cases walks_of_walkFrom h with
      | stay _ hrest => exact ih i hrest
      | up _ hrest => exact ih _ hrest
      | absent hdir hname hspot =>
          cases hspot
          exact ⟨_, _, hdir, hname⟩
      | link _ _ _ hrest => exact hfollow i _ steps hrest
      | name _ _ _ hrest => exact ih _ hrest

theorem free_of_walk {d : ℕ} {name : α} (links i : ℕ) (steps : List (Step α))
    (h : t.walk links i steps = some (.absent d name)) : Free t d name := by
  induction links generalizing i steps with
  | zero => exact free_of_walkFrom (fun _ _ _ hnone => absurd hnone (by simp)) i steps h
  | succ links ih => exact free_of_walkFrom (fun _ _ _ hrest => ih _ _ hrest) i steps h

variable [DecidableEq α] {d : ℕ} {name : α} {node : Node α β}

theorem extends_create (hfree : Free t d name) (hnode : ∀ target, node ≠ .link target) :
    Extends t (t.create d name node) := by
  have hlt := hfree.lt
  obtain ⟨parent, entries, hdir, hname⟩ := hfree
  refine ⟨rfl, rfl, fun j parent' entries' hdir' => ?_, fun j target => ?_⟩
  · have hnext : j ≠ t.next := by
      rintro rfl
      rw [t.fresh _ le_rfl] at hdir'
      cases hdir'
    rcases eq_or_ne j d with rfl | hother
    · rw [hdir] at hdir'
      cases hdir'
      refine ⟨Function.update entries name (some t.next), ?_, fun other k hother => ?_⟩
      · rw [nodes_create_dir t hnext, hdir]
        rfl
      · have hne : other ≠ name := by
          rintro rfl
          rw [hname] at hother
          cases hother
        rw [Function.update_of_ne hne, hother]
    · refine ⟨entries', ?_, fun _ _ hname => hname⟩
      rw [nodes_create_of_ne t hnext hother, hdir']
  · rcases eq_or_ne j t.next with rfl | hnext
    · rw [nodes_create_next, t.fresh _ le_rfl]
      simp [hnode]
    · rcases eq_or_ne j d with rfl | hother
      · rw [nodes_create_dir t hnext, hdir]
        simp [Node.addEntry]
      · rw [nodes_create_of_ne t hnext hother]

theorem lookup_create (hnode : ∀ target, node ≠ .link target) {path : Path α}
    (h : t.lookup path = some (.absent d name)) :
    (t.create d name node).lookup path = some (.node t.next) := by
  have hfree := free_of_walk _ _ _ h
  have hextends := extends_create hfree hnode
  have hne := ne_of_lt hfree.lt
  obtain ⟨parent, entries, hdir, -⟩ := hfree
  have hdir' : (t.create d name node).nodes d =
      some (.dir parent (Function.update entries name (some t.next))) := by
    rw [nodes_create_dir t hne, hdir]
    rfl
  have hlink : ∀ target, (t.create d name node).nodes t.next ≠ some (.link target) := by
    intro target
    rw [nodes_create_next, Ne, Option.some.injEq]
    exact hnode target
  exact lookup_extends hextends (Found.filled hdir' (Function.update_self ..) hlink) h

/-! ### Contents -/

omit [DecidableEq α] in
theorem fileAt_eq_some_iff {i : ℕ} {contents : β} :
    t.fileAt i = some contents ↔ t.nodes i = some (.file contents) := by
  rw [Tree.fileAt]
  split
  · next found hfile => rw [hfile, Option.some.injEq, Option.some.injEq, Node.file.injEq]
  · next hnot => exact iff_of_false (by simp) (hnot contents)

omit [DecidableEq α] in
theorem fileAt_write_self {i : ℕ} {old : β} (h : t.fileAt i = some old) (contents : β) :
    (t.write i contents).fileAt i = some contents := by
  rw [fileAt_eq_some_iff] at h ⊢
  rw [nodes_write_self, h]
  rfl

omit [DecidableEq α] in
theorem fileAt_write_of_ne {i j : ℕ} (h : j ≠ i) (contents : β) :
    (t.write i contents).fileAt j = t.fileAt j := by
  rw [Tree.fileAt, Tree.fileAt, nodes_write_of_ne t h]

theorem fileAt_create {i : ℕ} {contents : β} (hfree : Free t d name)
    (h : t.fileAt i = some contents) : (t.create d name node).fileAt i = some contents := by
  rw [fileAt_eq_some_iff] at h ⊢
  obtain ⟨parent, entries, hdir, -⟩ := hfree
  have hnext : i ≠ t.next := by
    rintro rfl
    rw [t.fresh _ le_rfl] at h
    cases h
  have hne : i ≠ d := by
    rintro rfl
    rw [hdir] at h
    cases h
  rw [nodes_create_of_ne t hnext hne, h]

omit [DecidableEq α] in
theorem read_eq_some_iff {path : Path α} {contents : β} :
    t.read path = some contents ↔
      ∃ i, t.lookup path = some (.node i) ∧ t.fileAt i = some contents := by
  rw [Tree.read]
  split
  · next i hlookup => simp [hlookup]
  · next hnot => exact iff_of_false (by simp) fun ⟨i, hlookup, _⟩ => hnot i hlookup

def KeepsFiles (t t' : Tree α β) : Prop :=
  ∀ i contents, t.fileAt i = some contents → t'.fileAt i = some contents

theorem makeDir_keeps {path : Path α} (h : t.makeDir path = some t') :
    Extends t t' ∧ KeepsFiles t t' := by
  rw [Tree.makeDir] at h
  split at h
  · split at h
    · split at h
      · next d _ parent entries hdir =>
          split_ifs at h with hnone
          obtain rfl := Option.some.inj h
          have hfree := Option.isNone_iff_eq_none.mp hnone
          exact ⟨extends_create ⟨parent, entries, hdir, hfree⟩ (by simp),
            fun i contents hfile => fileAt_create ⟨parent, entries, hdir, hfree⟩ hfile⟩
      · cases h
    · cases h
  · cases h

/-- The file with number `i` was opened for writing at the end of `path`. -/
structure Opened (t : Tree α β) (empty : β) (path : Path α) (t' : Tree α β) (i : ℕ) : Prop where
  grows : Extends t t'
  leads : t'.lookup path = some (.node i)
  emptied : t'.fileAt i = some empty
  others : ∀ j contents, j ≠ i → t.fileAt j = some contents → t'.fileAt j = some contents
  same_iff : ∀ j contents, t.fileAt j = some contents →
    (t.lookup path = some (.node j) ↔ j = i)

theorem openWrite_opened {empty : β} {path : Path α} {i : ℕ}
    (h : t.openWrite empty path = some (t', i)) : Opened t empty path t' i := by
  rw [Tree.openWrite] at h
  split at h
  · next k hlookup =>
      split_ifs at h with hfile
      obtain ⟨rfl, rfl⟩ := Prod.mk.inj (Option.some.inj h)
      obtain ⟨old, hold⟩ := Option.isSome_iff_exists.mp hfile
      refine ⟨extends_write t k empty, ?_, fileAt_write_self hold empty, ?_, ?_⟩
      · exact lookup_extends (extends_write t k empty) (.node k) hlookup
      · intro j contents hne hj
        rw [fileAt_write_of_ne hne, hj]
      · intro j _ _
        rw [hlookup, Option.some.injEq, Spot.node.injEq, eq_comm]
  · next d name hlookup =>
      obtain ⟨rfl, rfl⟩ := Prod.mk.inj (Option.some.inj h)
      have hfree := free_of_walk _ _ _ hlookup
      have hnot : ∀ target : Path α, (.file empty : Node α β) ≠ .link target := by simp
      refine ⟨extends_create hfree hnot, lookup_create hnot hlookup, ?_, ?_, ?_⟩
      · rw [fileAt_eq_some_iff, nodes_create_next]
      · intro j contents _ hj
        exact fileAt_create hfree hj
      · intro j contents hj
        rw [hlookup]
        refine iff_of_false (by simp) ?_
        rintro rfl
        rw [fileAt_eq_some_iff, t.fresh _ le_rfl] at hj
        cases hj
  · cases h

omit [DecidableEq α]

/-- From `t` to `t'` nothing but the contents of one file may have changed. -/
structure Wrote (t : Tree α β) (i : ℕ) (contents : β) (t' : Tree α β) : Prop where
  grows : Extends t t'
  contents_eq : t'.fileAt i = some contents
  others : ∀ j, j ≠ i → t'.fileAt j = t.fileAt j

theorem Wrote.refl {i : ℕ} {contents : β} (h : t.fileAt i = some contents) :
    Wrote t i contents t := ⟨.refl t, h, fun _ _ => rfl⟩

theorem Wrote.trans {t'' : Tree α β} {i : ℕ} {contents contents' : β}
    (h : Wrote t i contents t') (h' : Wrote t' i contents' t'') : Wrote t i contents' t'' :=
  ⟨h.grows.trans h'.grows, h'.contents_eq, fun j hj => (h'.others j hj).trans (h.others j hj)⟩

theorem wrote_write {i : ℕ} {old : β} (h : t.fileAt i = some old) (contents : β) :
    Wrote t i contents (t.write i contents) :=
  ⟨extends_write t i contents, fileAt_write_self h contents,
    fun _ hj => fileAt_write_of_ne hj contents⟩

end Kademlia.Foundations.FileTree
