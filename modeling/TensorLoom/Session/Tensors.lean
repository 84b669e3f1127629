import TensorLoom.Session.Basic
/-
# Graph and storage actions
-/

namespace TensorLoom.Session

/-! ## The graph -/

/-- Performs a construction; the node and its shape. -/
def construct (c : Construction) : Action (NodeId × Shape) :=
  extend .graph do
    let id ← c.build
    return (id, ← Build.shapeOf id)

/-- A node and its number of elements. -/
def node (x : NodeId) : Action (Node × Nat) := do
  let node ← request (((← get).graph.node x).mapError .graph)
  let elements ← words (Shape.elementCount node.shape)
  return (node, elements)

def reachable (x : NodeId) : Action (List Bool) := do
  request (((← get).graph.reachable x).mapError .graph)

def weightsOf (x : NodeId) : Action (List NodeId) := do
  request (((← get).graph.weightsOf x).mapError .graph)

def leaf (x : NodeId) : Action LeafHandle := do
  answer (((← get).graph.leafHandle x).map (·.mapError .graph))

/-- Appends gradients. -/
def differentiate (root : NodeId) (targets : List NodeId) : Action Gradients :=
  extend .gradient (TensorLoom.differentiate root targets)

/-! ## Storages -/

/-- A new storage under a name. -/
def create (name : String) (values : Array Float) : Action Unit := do
  setStore ((← get).store.create name values)

/-- A new storage of zeros. -/
def zeros (name : String) (count : Nat) : Action Unit := do
  create name (← words (allocate count 0.0))

/-- Another name for the storage of `source`. -/
def share (name source : String) : Action Unit := do
  let s ← tensor source
  setStore ((← get).store.setName name s)

def sameStorage (a b : String) : Action Bool := return (← tensor a) == (← tensor b)

/-- Takes a name away; whether it was there. -/
def drop (name : String) : Action Bool := do
  let st := (← get).store
  setStore (st.drop name)
  return (st.find? name).isSome

def read (name : String) : Action (Array Float) := do
  let s ← tensor name
  return (← get).store.values s

/-- One element. -/
def element (name : String) (i : Nat) : Action Float := do
  let s ← tensor name
  words ((← get).store.get s i)

/-- Overwrites one element; all elements afterwards. -/
def setElement (name : String) (i : Nat) (value : Float) : Action (Array Float) := do
  let s ← tensor name
  setStore (← words ((← get).store.set s i value))
  read name

/-- Overwrites all elements; all elements afterwards. -/
def copyFrom (name : String) (values : Array Float) : Action (Array Float) := do
  let s ← tensor name
  setStore (← words ((← get).store.copyFrom s values))
  read name

/-- A leaf is bound to live storage. -/
def isBound (x : NodeId) : Action Bool := return ((← get).store.bound? x).isSome

/-- Binds a leaf to the storage of a name. The leaf is looked up first. -/
def bind (x : NodeId) (name : String) : Action Bool := do
  let handle ← leaf x
  let s ← tensor name
  setStore (← request (((← get).store.bind handle s).mapError .graph))
  isBound x

def unbind (x : NodeId) : Action Bool := do
  let handle ← leaf x
  setStore ((← get).store.unbind handle.id)
  isBound x

end TensorLoom.Session
