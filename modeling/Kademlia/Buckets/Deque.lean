import Kademlia.Buckets.Table
import Kademlia.Foundations.Linked
import Kademlia.Model.LinkedList

/-!
The list of `list.c` as a deque.

The nodes are linked in both directions between two null pointers, and each
function keeps this but for two cases. A removal of the only node leaves the
other end of the list pointing to it, and a node for which `malloc` fails is
written all the same.
-/

namespace Kademlia.Buckets

open Foundations Model Model.Links

variable {α : Type}

def dnodeShape (α : Type) : Shape (DNode α) Address α := ⟨DNode.peer, DNode.next, DNode.prev⟩

/-- `Front` is the beginning of the list, `back` its end. -/
def dequeStep : Machine (List α) (Call α) (Option α)
  | xs, .addFront peer _ => (none, peer :: xs)
  | xs, .addBack peer _ => (none, xs ++ [peer])
  | xs, .removeFront => (xs.head?, xs.tail)
  | xs, .removeBack => (xs.getLast?, xs.dropLast)

/-- What can be seen of a list that holds the peers `xs`. -/
structure ShowsPeers (heap : Heap α) (list : Links.DList) (xs : List α) : Prop where
  size : list.size.toNat = xs.length
  head : list.head = none ↔ xs = []
  tail : list.tail = none ↔ xs = []
  forward : Enumerates (dnodeShape α) heap list.head xs
  backward : Enumerates (dnodeShape α).flip heap list.tail xs.reverse

/-- The same after a run, in which every node that was used was there. -/
def Shows (state : Option (Heap α × Links.DList)) (xs : List α) : Prop :=
  ∃ heap list, state = some (heap, list) ∧ ShowsPeers heap list xs

/-! ### What the functions keep -/

/-- The nodes of a list, from the head to the tail. -/
structure HasNodes (heap : Heap α) (list : Links.DList) (nodes : List (Address × α)) : Prop where
  chain : Chain (dnodeShape α) heap list.head list.tail nodes
  size : list.size.toNat = nodes.length

variable {heap : Heap α} {list : Links.DList} {nodes l : List (Address × α)} {a b : Address}
  {x y : α}

theorem HasNodes.shows (h : HasNodes heap list nodes) :
    ShowsPeers heap list (nodes.map Prod.snd) where
  size := by rw [h.size, List.length_map]
  head := by rw [h.chain.head_eq_none_iff, List.map_eq_nil_iff]
  tail := by rw [h.chain.tail_eq_none_iff, List.map_eq_nil_iff]
  forward := h.chain.enumerates
  backward := h.chain.enumerates_reverse

theorem hasNodes_empty (heap : Heap α) : HasNodes heap Links.DList.empty [] := ⟨.empty, rfl⟩

theorem toNat_size_add_one {size : UInt64} {n : ℕ} (h : size.toNat = n)
    (hn : n + 1 ≤ Fintype.card Address) : (size + 1).toNat = n + 1 := by
  have hsize : UInt64.size = 18446744073709551616 := rfl
  rw [Fintype.card_fin, hsize] at hn
  rw [UInt64.toNat_add, h]
  exact Nat.mod_eq_of_lt (by simp; omega)

theorem toNat_size_sub_one {size : UInt64} {n : ℕ} (h : size.toNat = n + 1) :
    (size - 1).toNat = n := by
  rw [UInt64.toNat_sub_of_le]
  · rw [h]
    rfl
  · rw [UInt64.le_iff_toNat_le, h]
    exact Nat.le_add_left 1 n

/-! One equation for each function on a list with nodes, and one for the additions to a list
without. -/

theorem addFront_of_empty (hhead : list.head = none) :
    Links.addFront heap list (some x) (some a) =
      some (Function.update heap a (some ⟨x, none, none⟩), ⟨1, some a, some a⟩) := by
  simp only [Links.addFront, hhead]
  rfl

theorem addBack_of_empty (hhead : list.head = none) (htail : list.tail = none) :
    addBack heap list (some x) (some a) =
      some (Function.update heap a (some ⟨x, none, none⟩), ⟨1, some a, some a⟩) := by
  simp only [addBack, hhead, htail]
  rfl

theorem addFront_of_head {n : DNode α} (hhead : list.head = some b) (hn : heap b = some n)
    (hne : b ≠ a) :
    Links.addFront heap list (some x) (some a) =
      some (Function.update (Function.update heap a (some ⟨x, some b, none⟩)) b
          (some { n with prev := some a }),
        { list with head := some a, size := list.size + 1 }) := by
  simp [Links.addFront, hhead, Function.update_of_ne hne, hn]

theorem addBack_of_tail {n : DNode α} (hhead : list.head ≠ none) (htail : list.tail = some b)
    (hn : heap b = some n) (hne : b ≠ a) :
    addBack heap list (some x) (some a) =
      some (Function.update (Function.update heap a (some ⟨x, none, some b⟩)) b
          (some { n with next := some a }),
        { list with tail := some a, size := list.size + 1 }) := by
  obtain ⟨head, hhead⟩ := Option.ne_none_iff_exists'.mp hhead
  simp [addBack, hhead, htail, Function.update_of_ne hne, hn]

theorem removeFront_of_next {n m : DNode α} (hhead : list.head = some a) (hn : heap a = some n)
    (hnext : n.next = some b) (hm : heap b = some m) (hne : a ≠ b) :
    removeFront heap list =
      some (some n.peer, Function.update (Function.update heap b (some { m with prev := none })) a
          none, { list with head := some b, size := list.size - 1 }) := by
  simp [removeFront, clearPrev, hhead, hn, hnext, hm, Function.update_of_ne hne]

theorem removeBack_of_prev {n m : DNode α} (htail : list.tail = some a) (hn : heap a = some n)
    (hprev : n.prev = some b) (hm : heap b = some m) (hne : a ≠ b) :
    removeBack heap list =
      some (some n.peer, Function.update (Function.update heap b (some { m with next := none })) a
          none, { list with tail := some b, size := list.size - 1 }) := by
  simp [removeBack, clearNext, htail, hn, hprev, hm, Function.update_of_ne hne]

/-- The only node: the tail goes on pointing to it. -/
theorem removeFront_of_last {n : DNode α} (hhead : list.head = some a) (hn : heap a = some n)
    (hnext : n.next = none) :
    removeFront heap list = some (some n.peer, Function.update heap a none,
      { list with head := none, size := list.size - 1 }) := by
  simp [removeFront, clearPrev, hhead, hn, hnext]

theorem removeBack_of_last {n : DNode α} (htail : list.tail = some a) (hn : heap a = some n)
    (hprev : n.prev = none) :
    removeBack heap list = some (some n.peer, Function.update heap a none,
      { list with tail := none, size := list.size - 1 }) := by
  simp [removeBack, clearNext, htail, hn, hprev]

/-! ### Additions -/

theorem addFront_hasNodes (h : HasNodes heap list nodes) (ha : heap a = none) (x : α) :
    ∃ heap' list', Links.addFront heap list (some x) (some a) = some (heap', list') ∧
      HasNodes heap' list' ((a, x) :: nodes) := by
  cases nodes with
  | nil =>
      refine ⟨_, _, addFront_of_empty h.chain.head_eq, .single ?_, rfl⟩
      exact ⟨_, Function.update_self _ _ _, rfl, rfl, rfl⟩
  | cons p l =>
      obtain ⟨n, hn, hvalue, -, hnext⟩ := h.chain.cell
      have hchain := h.chain.push (x := x) (n := ⟨x, some p.1, none⟩)
        (m := { n with prev := some a }) ha ⟨rfl, rfl, rfl⟩ ⟨hvalue, rfl, hnext⟩
      exact ⟨_, _, addFront_of_head h.chain.head_eq hn (h.chain.cell.ne ha), hchain,
        toNat_size_add_one h.size hchain.length_le⟩

theorem addBack_hasNodes (h : HasNodes heap list nodes) (ha : heap a = none) (x : α) :
    ∃ heap' list', addBack heap list (some x) (some a) = some (heap', list') ∧
      HasNodes heap' list' (nodes ++ [(a, x)]) := by
  have hreverse := h.chain.reverse
  cases hnodes : nodes.reverse with
  | nil =>
      rw [List.reverse_eq_nil_iff.mp hnodes] at h ⊢
      refine ⟨_, _, addBack_of_empty h.chain.head_eq h.chain.tail_eq, .single ?_, rfl⟩
      exact ⟨_, Function.update_self _ _ _, rfl, rfl, rfl⟩
  | cons p l =>
      rw [hnodes] at hreverse
      obtain ⟨n, hn, hvalue, -, hnext⟩ := hreverse.cell
      have hchain := (hreverse.push (x := x) (n := ⟨x, none, some p.1⟩)
        (m := { n with next := some a }) ha ⟨rfl, rfl, rfl⟩ ⟨hvalue, rfl, hnext⟩).reverse
      have hback : ((a, x) :: p :: l).reverse = nodes ++ [(a, x)] := by
        rw [List.reverse_cons, ← hnodes, List.reverse_reverse]
      have hhead : list.head ≠ none := by
        rw [Ne, h.chain.head_eq_none_iff, ← List.reverse_eq_nil_iff, hnodes]
        exact List.cons_ne_nil _ _
      rw [hback] at hchain
      have hlen := hchain.length_le
      rw [List.length_append] at hlen
      refine ⟨_, _, addBack_of_tail hhead hreverse.head_eq hn (hreverse.cell.ne ha), hchain, ?_⟩
      rw [List.length_append]
      exact toNat_size_add_one h.size hlen

/-! ### Removals -/

theorem removeFront_hasNodes {p q : Address × α} (h : HasNodes heap list (p :: q :: l)) :
    ∃ heap' list', removeFront heap list = some (some p.2, heap', list') ∧
      HasNodes heap' list' (q :: l) := by
  obtain ⟨n, hn, hvalue, -, hnext⟩ := h.chain.cell
  obtain ⟨m, hm, hvalue', -, hnext'⟩ := h.chain.second_cell
  have hchain := h.chain.pop (m := { m with prev := none }) ⟨hvalue', rfl, hnext'⟩
  rw [← hvalue]
  exact ⟨_, _, removeFront_of_next h.chain.head_eq hn hnext hm h.chain.first_ne_second, hchain,
    toNat_size_sub_one h.size⟩

theorem removeBack_hasNodes {p q : Address × α} (h : HasNodes heap list nodes)
    (hnodes : nodes.reverse = p :: q :: l) :
    ∃ heap' list', removeBack heap list = some (some p.2, heap', list') ∧
      HasNodes heap' list' (q :: l).reverse := by
  have hreverse := h.chain.reverse
  rw [hnodes] at hreverse
  obtain ⟨n, hn, hvalue, -, hnext⟩ := hreverse.cell
  obtain ⟨m, hm, hvalue', -, hnext'⟩ := hreverse.second_cell
  have hchain := (hreverse.pop (m := { m with next := none }) ⟨hvalue', rfl, hnext'⟩).reverse
  have hlen : list.size.toNat = l.length + 1 + 1 := by
    rw [h.size, ← List.length_reverse, hnodes]
    rfl
  rw [← hvalue]
  refine ⟨_, _, removeBack_of_prev hreverse.head_eq hn hnext hm hreverse.first_ne_second, hchain, ?_⟩
  rw [List.length_reverse]
  exact toNat_size_sub_one hlen

/-! ### Runs -/

/-- `malloc` returns memory that is not in use. -/
def MallocFresh : Option (Heap α × Links.DList) → Call α → Prop
  | some (heap, _), .addFront _ (some a) => heap a = none
  | some (heap, _), .addBack _ (some a) => heap a = none
  | _, _ => True

/-- An addition gets its node, and a removal does not take the only peer. -/
def KeepsEnds (xs : List α) : Call α → Prop
  | .addFront _ malloc => malloc ≠ none
  | .addBack _ malloc => malloc ≠ none
  | .removeFront => xs.length ≠ 1
  | .removeBack => xs.length ≠ 1

def InNodes (state : Option (Heap α × Links.DList)) (xs : List α) : Prop :=
  ∃ heap list nodes, state = some (heap, list) ∧ HasNodes heap list nodes ∧
    nodes.map Prod.snd = xs

variable {state : Option (Heap α × Links.DList)} {xs : List α}

theorem InNodes.shows (h : InNodes state xs) : Shows state xs := by
  obtain ⟨heap, list, nodes, hstate, hnodes, rfl⟩ := h
  exact ⟨heap, list, hstate, hnodes.shows⟩

theorem call_keeps {c : Call α} (h : InNodes state xs) (hfresh : MallocFresh state c)
    (hends : KeepsEnds xs c) :
    (call state c).1 = (dequeStep xs c).1 ∧ InNodes (call state c).2 (dequeStep xs c).2 := by
  obtain ⟨heap, list, nodes, rfl, hnodes, rfl⟩ := h
  cases c with
  | addFront peer malloc =>
      obtain ⟨a, rfl⟩ := Option.ne_none_iff_exists'.mp hends
      obtain ⟨heap', list', hadd, hnodes'⟩ := addFront_hasNodes hnodes hfresh peer
      exact ⟨rfl, heap', list', _, hadd, hnodes', rfl⟩
  | addBack peer malloc =>
      obtain ⟨a, rfl⟩ := Option.ne_none_iff_exists'.mp hends
      obtain ⟨heap', list', hadd, hnodes'⟩ := addBack_hasNodes hnodes hfresh peer
      exact ⟨rfl, heap', list', _, hadd, hnodes', List.map_append⟩
  | removeFront =>
      rw [KeepsEnds, List.length_map] at hends
      match nodes, hends with
      | [], _ =>
          have hremove : removeFront heap list = some (none, heap, list) := by
            simp only [removeFront, hnodes.chain.head_eq, firstOr]
          simp only [call, hremove]
          exact ⟨rfl, heap, list, [], rfl, hnodes, rfl⟩
      | [_], hends => exact absurd rfl hends
      | p :: q :: l, _ =>
          obtain ⟨heap', list', hremove, hnodes'⟩ := removeFront_hasNodes hnodes
          simp only [call, hremove]
          exact ⟨rfl, heap', list', _, rfl, hnodes', rfl⟩
  | removeBack =>
      rw [KeepsEnds, List.length_map, ← List.length_reverse] at hends
      obtain ⟨l, rfl⟩ : ∃ l : List (Address × α), nodes = l.reverse :=
        ⟨_, (List.reverse_reverse nodes).symm⟩
      rw [List.reverse_reverse] at hends
      match l, hends with
      | [], _ =>
          have hremove : removeBack heap list = some (none, heap, list) := by
            simp only [removeBack, hnodes.chain.tail_eq, List.reverse_nil, lastOr]
          simp only [call, hremove]
          exact ⟨rfl, heap, list, [], rfl, hnodes, rfl⟩
      | [_], hends => exact absurd rfl hends
      | p :: q :: l, _ =>
          obtain ⟨heap', list', hremove, hnodes'⟩ :=
            removeBack_hasNodes hnodes (List.reverse_reverse _)
          simp only [call, hremove]
          refine ⟨?_, heap', list', _, rfl, hnodes', ?_⟩
          · simp [dequeStep]
          · simp [dequeStep]

/-- After a removal of the only peer one end still points to its node. -/
theorem call_breaks {c : Call α} (h : InNodes state xs) (hends : ¬ KeepsEnds xs c) :
    ¬ Shows (call state c).2 (dequeStep xs c).2 := by
  obtain ⟨heap, list, nodes, rfl, hnodes, rfl⟩ := h
  rintro ⟨heap', list', hcall, hshows⟩
  cases c with
  | addFront peer malloc =>
      rw [KeepsEnds, not_not] at hends
      subst hends
      cases hcall
  | addBack peer malloc =>
      rw [KeepsEnds, not_not] at hends
      subst hends
      cases hcall
  | removeFront =>
      rw [KeepsEnds, not_not, List.length_map] at hends
      obtain ⟨p, rfl⟩ := List.length_eq_one_iff.mp hends
      obtain ⟨n, hn, -, -, hnext⟩ := hnodes.chain.cell
      simp only [call, removeFront_of_last hnodes.chain.head_eq hn hnext, Option.map_some,
        Option.some.injEq, Prod.mk.injEq] at hcall
      have htail := hshows.tail.mpr rfl
      rw [← hcall.2, hnodes.chain.tail_eq] at htail
      cases htail
  | removeBack =>
      rw [KeepsEnds, not_not, List.length_map] at hends
      obtain ⟨p, rfl⟩ := List.length_eq_one_iff.mp hends
      obtain ⟨n, hn, -, hprev, -⟩ := hnodes.chain.cell
      simp only [call, removeBack_of_last hnodes.chain.tail_eq hn hprev, Option.map_some,
        Option.some.injEq, Prod.mk.injEq] at hcall
      have hhead := hshows.head.mpr rfl
      rw [← hcall.2, hnodes.chain.head_eq] at hhead
      cases hhead

theorem inNodes_empty (heap : Heap α) :
    InNodes (some (heap, Links.DList.empty)) ([] : List α) :=
  ⟨heap, _, [], rfl, hasNodes_empty heap, rfl⟩

/-- The list is a deque in exactly the runs in which every addition gets its node and no
removal takes the only peer. -/
theorem follows_deque_iff (heap : Heap α) (calls : List (Call α))
    (hfresh : call.Meets MallocFresh (some (heap, Links.DList.empty)) calls) :
    call.Follows dequeStep Shows (some (heap, Links.DList.empty)) [] calls ↔
      dequeStep.Meets KeepsEnds [] calls :=
  Machine.follows_iff_meets InNodes.shows call_keeps (fun h _ hends => call_breaks h hends)
    (inNodes_empty heap) hfresh

def address₁ : Address := ⟨0, by decide⟩

def address₂ : Address := ⟨1, by decide⟩

theorem follows_deque_iff_bothEnds :
    call.Follows dequeStep Shows (some (fun _ => none, Links.DList.empty)) []
        [.addFront 1 (some address₁), .addBack 2 (some address₂), .removeFront] ↔
      dequeStep.Meets KeepsEnds []
        [.addFront 1 (some address₁), .addBack 2 (some address₂), .removeFront] :=
  follows_deque_iff (fun _ => none) _ ⟨rfl, rfl, trivial, trivial⟩

/-- The tail is left behind, and the next removal from the back reads a freed node. -/
theorem not_follows_deque_onePeer :
    ¬ call.Follows dequeStep Shows (some (fun _ => none, Links.DList.empty)) []
        [.addFront 1 (some address₁), .removeFront] ∧
      (call.run (some (fun _ => none, Links.DList.empty))
        [.addFront 1 (some address₁), .removeFront, .removeBack]).2 = none := by
  refine ⟨?_, rfl⟩
  rintro ⟨-, -, -, -, heap, list, hstate, hshows⟩
  cases hstate
  cases hshows.tail.mpr rfl

/-! ### The lists of the table -/

/-- The list is the one that the table is modelled with. -/
def IsBucket (state : Option (Heap Peer × Links.DList)) (bucket : Model.DList) : Prop :=
  InNodes state bucket.peers ∧ bucket.size = bucket.peers.length

theorem addFront_isBucket {state : Option (Heap Peer × Links.DList)} {bucket : Model.DList}
    (h : IsBucket state bucket) {peer : Peer}
    (hfresh : MallocFresh state (.addFront peer (some a))) :
    IsBucket (call state (.addFront peer (some a))).2 (Model.addFront bucket peer) := by
  refine ⟨?_, addFront_size h.2 peer⟩
  rw [addFront_peers]
  exact (call_keeps h.1 hfresh (Option.some_ne_none a)).2

/-- `update_bucket_peers` uses `add_front` only, so the lists of the table are always in order. -/
theorem addFront_run_isBucket {state : Option (Heap Peer × Links.DList)} {bucket : Model.DList}
    (h : IsBucket state bucket) (adds : List (Peer × Address))
    (hfresh : call.Meets MallocFresh state (adds.map fun add => .addFront add.1 (some add.2))) :
    IsBucket (call.run state (adds.map fun add => .addFront add.1 (some add.2))).2
      (adds.foldl (fun bucket add => Model.addFront bucket add.1) bucket) := by
  induction adds generalizing state bucket with
  | nil => exact h
  | cons add adds ih => exact ih (addFront_isBucket h hfresh.1) hfresh.2

end Kademlia.Buckets
