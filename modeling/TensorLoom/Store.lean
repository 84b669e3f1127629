import TensorLoom.Graph.Basic
import TensorLoom.Machine
/-
# Storages, handles and bindings

A name is a handle that keeps a storage alive; a leaf only refers to one. When the last
name of a storage goes, the leaves bound to it are unbound.
-/

namespace TensorLoom

/-- Number of a storage, never used again. -/
abbrev StorageId := Nat

structure Store (α : Type) where
  /-- The elements of every storage there ever was, by number. -/
  contents : Memory α := #[]
  names : List (String × StorageId) := []
  bindings : List (NodeId × StorageId) := []

/-- The elements that one storage can have at most: their bytes have to be addressable by
a signed word. -/
def largestStorage : Nat := 1152921504606846975

/-- A block of `n` elements. -/
def allocate {α : Type} (n : Nat) (a : α) : Except Fault (Array α) :=
  if n ≤ largestStorage then .ok (Array.replicate n a) else .error .allocation

namespace Store

variable {α : Type}

/-- The storage of a name. -/
def find? (st : Store α) (name : String) : Option StorageId := st.names.lookup name

/-- Some name still refers to the storage. -/
def live (st : Store α) (s : StorageId) : Bool := st.names.any (·.2 == s)

/-- The live storage that a leaf is bound to. -/
def bound? (st : Store α) (leaf : NodeId) : Option StorageId := (st.bindings.lookup leaf).filter st.live

def values (st : Store α) (s : StorageId) : Array α := st.contents.getD s #[]

/-- Lets a name refer to a storage and to nothing else. -/
def setName (st : Store α) (name : String) (s : StorageId) : Store α :=
  { st with names := (name, s) :: st.names.filter (·.1 != name) }

/-- A new storage under a name. -/
def create (st : Store α) (name : String) (values : Array α) : Store α :=
  let s := st.contents.size
  { st with contents := st.contents.push values }.setName name s

/-- Takes a name away. -/
def drop (st : Store α) (name : String) : Store α :=
  { st with names := st.names.filter (·.1 != name) }

/-- Element number `i` of a storage. -/
def get (st : Store α) (s : StorageId) (i : Nat) : Except Fault α :=
  match (st.values s)[i]? with
  | some a => .ok a
  | none => .error .element

def setValues (st : Store α) (s : StorageId) (values : Array α) : Store α :=
  { st with contents := st.contents.setIfInBounds s values }

/-- Overwrites one element. -/
def set (st : Store α) (s : StorageId) (i : Nat) (a : α) : Except Fault (Store α) :=
  if i < (st.values s).size then .ok (st.setValues s ((st.values s).setIfInBounds i a)) else .error .element

/-- Overwrites all elements by as many others. -/
def copyFrom (st : Store α) (s : StorageId) (values : Array α) : Except Fault (Store α) :=
  if values.size = (st.values s).size then .ok (st.setValues s values) else .error .length

/-- Binds a leaf to a storage of its length. -/
def bind (st : Store α) (leaf : LeafHandle) (s : StorageId) : Except GraphError (Store α) :=
  let found := (st.values s).size
  if found = leaf.len then .ok { st with bindings := (leaf.id, s) :: st.bindings.filter (·.1 != leaf.id) }
  else .error (.sizeMismatch leaf.id leaf.len found)

def unbind (st : Store α) (leaf : NodeId) : Store α :=
  { st with bindings := st.bindings.filter (·.1 != leaf) }

end Store

/-- A leaf as it is shown, with the state of its binding. -/
def LeafHandle.describe {α : Type} (st : Store α) (h : LeafHandle) : String :=
  let bound := toString (st.bound? h.id).isSome
  s!"LeafHandle \x7b id: NodeId({h.id}), slot: DataSlot \x7b bound: " ++ bound ++ s!" \x7d, len: {h.len} \x7d"

end TensorLoom
