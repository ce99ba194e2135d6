import DynamoKV.Objects.Storage
import DynamoKV.Objects.Version

namespace DynamoKV

-- One blob per intended recipient: a dict from keys to the sibling lists held for it.
abbrev HintBlob (α : Type*) :=
  AList (fun _ : Key => List (VersionDict α))

structure HintStore (α : Type*) where
  storage : Storage (HintBlob α)

namespace HintStore

variable {α : Type*} {s : HintStore α} {t t' : NodeId} {k k' : Key}

def empty : HintStore α :=
  ⟨.empty⟩

def load (s : HintStore α) (targetNodeId : NodeId) : HintBlob α :=
  (s.storage.get targetNodeId).getD ∅

def save (s : HintStore α) (targetNodeId : NodeId) (blob : HintBlob α) : HintStore α :=
  ⟨s.storage.put targetNodeId blob⟩

def add (s : HintStore α) (targetNodeId : NodeId) (key : Key) (version : Version α) :
    HintStore α :=
  let blob     := s.load targetNodeId
  let existing := ((blob.lookup key).getD []).map Version.fromDict
  let merged   := reconcile existing version
  s.save targetNodeId <| blob.insert key (merged.map Version.toDict)

def pendingFor (s : HintStore α) (targetNodeId : NodeId) : List (Key × List (Version α)) :=
  (s.load targetNodeId).entries.map fun e => (e.1, e.2.map Version.fromDict)

def clearKey (s : HintStore α) (targetNodeId : NodeId) (key : Key) : HintStore α :=
  let blob := s.load targetNodeId
  if key ∈ blob then
    let blob := blob.erase key
    if blob.keys = [] then ⟨(s.storage.delete targetNodeId).2⟩ else s.save targetNodeId blob
  else s

def hasPending (s : HintStore α) (targetNodeId : NodeId) : Bool :=
  s.storage.exists' targetNodeId

-- The siblings held for a recipient under one key.
def pending (s : HintStore α) (targetNodeId : NodeId) (key : Key) : List (Version α) :=
  (((s.load targetNodeId).lookup key).getD []).map Version.fromDict

@[simp]
theorem load_empty : (empty : HintStore α).load t = ∅ := by
  simp [load, empty]

@[simp]
theorem pending_empty : (empty : HintStore α).pending t k = [] := by
  simp [pending]

@[simp]
theorem load_save_self : (s.save t b).load t = b := by
  simp [save, load]

theorem load_save_of_ne (h : t' ≠ t) : (s.save t b).load t' = s.load t' := by
  simp [save, load, Storage.get_put_of_ne h]

theorem mem_pendingFor (h : (k, vs) ∈ s.pendingFor t) : vs = s.pending t k := by
  have ⟨⟨k', ds⟩, he, h⟩ := List.mem_map.mp h
  obtain ⟨rfl, rfl⟩ := Prod.mk.inj h
  have hl : (s.load t).lookup k' = some ds :=
    AList.mem_lookup_iff.mpr he
  simp [pending, hl]

theorem exists_pendingFor (h : v ∈ s.pending t k) : ∃ vs, (k, vs) ∈ s.pendingFor t ∧ v ∈ vs := by
  unfold pending at h
  cases hl : (s.load t).lookup k
  case none    => simp [hl] at h
  case some ds =>
    rw [hl, Option.getD_some] at h
    exact ⟨_, List.mem_map.mpr ⟨⟨k, ds⟩, AList.mem_lookup_iff.mp hl, rfl⟩, h⟩

theorem pendingFor_pairwise (s : HintStore α) (t : NodeId) :
    (s.pendingFor t).Pairwise fun e e' => e.1 ≠ e'.1 :=
  List.pairwise_map.mpr <| List.nodupKeys_iff_pairwise.mp (s.load t).nodupKeys

@[simp]
theorem pending_add_self : (s.add t k v).pending t k = reconcile (s.pending t k) v := by
  simp [pending, add]

theorem pending_add_of_ne (h : t' ≠ t ∨ k' ≠ k) :
    (s.add t k v).pending t' k' = s.pending t' k' := by
  by_cases ht : t' = t
  case pos =>
    subst ht
    simp [pending, add, AList.lookup_insert_ne <| h.resolve_left (· rfl)]
  case neg => simp [pending, add, load_save_of_ne ht]

theorem load_clearKey_self : (s.clearKey t k).load t = (s.load t).erase k := by
  simp only [clearKey]
  split_ifs with hm he
  case pos =>
    have h : (s.load t).erase k = ∅ := by
      rw [AList.keys, List.keys, List.map_eq_nil_iff] at he
      exact AList.ext he
    rw [h, load, Storage.get_delete_self, Option.getD_none]
  case neg => simp
  case neg => exact AList.ext (List.kerase_of_notMem_keys hm).symm

theorem load_clearKey_of_ne (h : t' ≠ t) : (s.clearKey t k).load t' = s.load t' := by
  simp only [clearKey]
  split_ifs
  · simp [load, Storage.get_delete_of_ne h]
  · exact load_save_of_ne h
  · rfl

@[simp]
theorem pending_clearKey_self : (s.clearKey t k).pending t k = [] := by
  simp [pending, load_clearKey_self]

theorem pending_clearKey_of_ne (h : t' ≠ t ∨ k' ≠ k) :
    (s.clearKey t k).pending t' k' = s.pending t' k' := by
  by_cases ht : t' = t
  case pos =>
    subst ht
    simp [pending, load_clearKey_self, AList.lookup_erase_ne <| h.resolve_left (· rfl)]
  case neg => simp [pending, load_clearKey_of_ne ht]

end HintStore
end DynamoKV
