import Mathlib.Data.List.AList
import Mathlib.Tactic

namespace DynamoKV

abbrev Key := String

-- The contract of `StorageBackend`, with the dict of `MemoryStorage` as its contents.
structure Storage (β : Type*) where
  data : AList (fun _ : Key => β)

namespace Storage

variable {β : Type*} {s : Storage β} {k k' : Key}

def empty : Storage β :=
  ⟨∅⟩

def get (s : Storage β) (key : Key) : Option β :=
  s.data.lookup key

def put (s : Storage β) (key : Key) (value : β) : Storage β :=
  ⟨s.data.insert key value⟩

-- Returns whether the key existed, along with the new contents.
def delete (s : Storage β) (key : Key) : Bool × Storage β :=
  (key ∈ s.data, ⟨s.data.erase key⟩)

def exists' (s : Storage β) (key : Key) : Bool :=
  key ∈ s.data

@[simp]
theorem get_empty : (empty : Storage β).get k = none :=
  rfl

@[simp]
theorem get_put_self : (s.put k b).get k = some b := by
  simp [get, put]

theorem get_put_of_ne (h : k' ≠ k) : (s.put k b).get k' = s.get k' := by
  simp [get, put, AList.lookup_insert_ne h]

@[simp]
theorem get_delete_self : (s.delete k).2.get k = none := by
  simp [get, delete]

theorem get_delete_of_ne (h : k' ≠ k) : (s.delete k).2.get k' = s.get k' := by
  simp [get, delete, AList.lookup_erase_ne h]

theorem delete_fst : (s.delete k).1 = (s.get k).isSome := by
  rw [get, Bool.eq_iff_iff, AList.lookup_isSome, delete, decide_eq_true_eq]

theorem exists'_eq : s.exists' k = (s.get k).isSome := by
  rw [get, Bool.eq_iff_iff, AList.lookup_isSome, exists', decide_eq_true_eq]

end Storage
end DynamoKV
