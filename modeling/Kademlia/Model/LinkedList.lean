import Kademlia.Foundations.Machine
import Mathlib.Logic.Function.Basic

/-!
`list.c`: the nodes and links of a `struct DList`.

The heap holds the nodes that are allocated and not freed. What the code does
with a node that is not there, by a null pointer or a dangling one, has no
meaning in C, and is `none` here. A peer is a pointer that is not null; nothing
in this part of the program looks behind it. The result of `malloc` comes from
outside, with `none` for a null pointer.
-/

namespace Kademlia.Model.Links

open Foundations

/-- The addresses of 64 bits that are not null. -/
abbrev Address := Fin (UInt64.size - 1)

abbrev Pointer := Option Address

structure DNode (α : Type) where
  peer : α
  next : Pointer
  prev : Pointer

structure DList where
  size : UInt64
  head : Pointer
  tail : Pointer

def DList.empty : DList := ⟨0, none, none⟩

abbrev Heap (α : Type) := Address → Option (DNode α)

variable {α : Type}

def addFront (heap : Heap α) (list : DList) (peer : Option α) (malloc : Pointer) :
    Option (Heap α × DList) :=
  match peer with
  | none => some (heap, list)
  | some peer => do
      -- `pointer_not_null` logs a failure and goes on
      let newNode ← malloc
      let heap := Function.update heap newNode (some ⟨peer, list.head, none⟩)
      match list.head with
      | none => some (heap, ⟨1, some newNode, some newNode⟩)
      | some head => do
          let headNode ← heap head
          some (Function.update heap head (some { headNode with prev := some newNode }),
            { list with head := some newNode, size := list.size + 1 })

def addBack (heap : Heap α) (list : DList) (peer : Option α) (malloc : Pointer) :
    Option (Heap α × DList) :=
  match peer with
  | none => some (heap, list)
  | some peer => do
      let newNode ← malloc
      let heap := Function.update heap newNode (some ⟨peer, none, list.tail⟩)
      match list.head with
      | none => some (heap, ⟨1, some newNode, some newNode⟩)
      | some _ => do
          let tail ← list.tail
          let tailNode ← heap tail
          some (Function.update heap tail (some { tailNode with next := some newNode }),
            { list with tail := some newNode, size := list.size + 1 })

/-- `list->head->next->prev = NULL`, if there is a next node. -/
def clearPrev (heap : Heap α) : Pointer → Option (Heap α)
  | none => some heap
  | some next => do
      let nextNode ← heap next
      some (Function.update heap next (some { nextNode with prev := none }))

/-- `list->tail->prev->next = NULL`, if there is a node before. -/
def clearNext (heap : Heap α) : Pointer → Option (Heap α)
  | none => some heap
  | some prev => do
      let prevNode ← heap prev
      some (Function.update heap prev (some { prevNode with next := none }))

def removeFront (heap : Heap α) (list : DList) : Option (Option α × Heap α × DList) :=
  match list.head with
  | none => some (none, heap, list)
  | some head => do
      let node ← heap head
      let heap ← clearPrev heap node.next
      let node ← heap head
      -- `list->tail` stays as it is
      some (some node.peer, Function.update heap head none,
        { list with head := node.next, size := list.size - 1 })

def removeBack (heap : Heap α) (list : DList) : Option (Option α × Heap α × DList) :=
  match list.tail with
  | none => some (none, heap, list)
  | some tail => do
      let node ← heap tail
      let heap ← clearNext heap node.prev
      let node ← heap tail
      some (some node.peer, Function.update heap tail none,
        { list with tail := node.prev, size := list.size - 1 })

inductive Call (α : Type)
  | addFront (peer : α) (malloc : Pointer)
  | addBack (peer : α) (malloc : Pointer)
  | removeFront
  | removeBack

/-- The calls in turn, with the peer that a removal returns; nothing comes after a use of a
node that is not there. -/
def call : Machine (Option (Heap α × DList)) (Call α) (Option α)
  | none, _ => (none, none)
  | some (heap, list), .addFront peer malloc => (none, addFront heap list (some peer) malloc)
  | some (heap, list), .addBack peer malloc => (none, addBack heap list (some peer) malloc)
  | some (heap, list), .removeFront =>
      ((removeFront heap list).bind Prod.fst, (removeFront heap list).map Prod.snd)
  | some (heap, list), .removeBack =>
      ((removeBack heap list).bind Prod.fst, (removeBack heap list).map Prod.snd)

end Kademlia.Model.Links
