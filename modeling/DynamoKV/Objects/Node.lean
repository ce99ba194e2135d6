import DynamoKV.Objects.HintStore

namespace DynamoKV

-- The parts of a node which outlive a request: its replica storage and the hints it holds.
structure Node (α : Type*) where
  storage   : Storage (List (VersionDict α))
  hintStore : HintStore α

namespace Node

variable {α : Type*} {n : Node α} {k k' : Key} {v : Version α}

def empty : Node α :=
  ⟨.empty, .empty⟩

def getLocal (n : Node α) (key : Key) : List (Version α) :=
  match n.storage.get key with
  | none     => []
  | some raw => raw.map Version.fromDict

-- The storage put which ends `put_local`, for the siblings read at its start.
def putMerged (n : Node α) (key : Key) (existing : List (Version α)) (version : Version α) :
    Node α :=
  let merged := reconcile existing version
  { n with storage := n.storage.put key (merged.map Version.toDict) }

def putLocal (n : Node α) (key : Key) (version : Version α) : Node α :=
  n.putMerged key (n.getLocal key) version

def deleteLocal (n : Node α) (key : Key) : Bool × Node α :=
  let (existed, storage) := n.storage.delete key
  (existed, { n with storage })

def existsLocal (n : Node α) (key : Key) : Bool :=
  n.storage.exists' key

def addHint (n : Node α) (targetNodeId : NodeId) (key : Key) (version : Version α) : Node α :=
  { n with hintStore := n.hintStore.add targetNodeId key version }

def clearHints (n : Node α) (targetNodeId : NodeId) (key : Key) : Node α :=
  { n with hintStore := n.hintStore.clearKey targetNodeId key }

@[simp]
theorem getLocal_empty : (empty : Node α).getLocal k = [] :=
  rfl

@[simp]
theorem getLocal_putMerged_self : (n.putMerged k vs v).getLocal k = reconcile vs v := by
  simp [putMerged, getLocal]

@[simp]
theorem getLocal_putLocal_self : (n.putLocal k v).getLocal k = reconcile (n.getLocal k) v :=
  getLocal_putMerged_self

theorem getLocal_putLocal_of_ne (h : k' ≠ k) : (n.putLocal k v).getLocal k' = n.getLocal k' := by
  simp [putLocal, putMerged, getLocal, Storage.get_put_of_ne h]

@[simp]
theorem getLocal_deleteLocal_self : (n.deleteLocal k).2.getLocal k = [] := by
  simp [deleteLocal, getLocal]

theorem getLocal_deleteLocal_of_ne (h : k' ≠ k) :
    (n.deleteLocal k).2.getLocal k' = n.getLocal k' := by
  simp [deleteLocal, getLocal, Storage.get_delete_of_ne h]

@[simp]
theorem getLocal_addHint : (n.addHint t k v).getLocal k' = n.getLocal k' :=
  rfl

@[simp]
theorem getLocal_clearHints : (n.clearHints t k).getLocal k' = n.getLocal k' :=
  rfl

@[simp]
theorem hintStore_putLocal : (n.putLocal k v).hintStore = n.hintStore :=
  rfl

@[simp]
theorem hintStore_deleteLocal : (n.deleteLocal k).2.hintStore = n.hintStore :=
  rfl

@[simp]
theorem hintStore_addHint : (n.addHint t k v).hintStore = n.hintStore.add t k v :=
  rfl

@[simp]
theorem hintStore_clearHints : (n.clearHints t k).hintStore = n.hintStore.clearKey t k :=
  rfl

end Node
end DynamoKV
