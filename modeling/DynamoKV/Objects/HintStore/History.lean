import DynamoKV.Objects.HintStore

-- What a hint store holds after any sequence of calls, as a map of antichains for each target.
namespace DynamoKV

variable {α : Type*}

inductive HintOp (α : Type*)
  | add (targetNodeId : NodeId) (key : Key) (version : Version α)
  | clearKey (targetNodeId : NodeId) (key : Key)

namespace HintOp

def pair : HintOp α → NodeId × Key
  | add t k _ | clearKey t k => (t, k)

def apply (s : HintStore α) : HintOp α → HintStore α
  | add t k v    => s.add t k v
  | clearKey t k => s.clearKey t k

def run (history : List (HintOp α)) : HintStore α :=
  history.foldl apply .empty

def collect (t : NodeId) (k : Key) (versions : List (Version α)) : HintOp α → List (Version α)
  | add t' k' v    => if (t, k) = (t', k') then versions ++ [v] else versions
  | clearKey t' k' => if (t, k) = (t', k') then [] else versions

-- The versions which were added for a pair since it was last cleared, in order.
def added (t : NodeId) (k : Key) (history : List (HintOp α)) : List (Version α) :=
  history.foldl (collect t k) []

-- The entry of the map for a pair, of which there is none without an addition.
def folded : List (Version α) → Option (List (Version α))
  | []       => none
  | versions => some <| reconcileAll [] versions

theorem folded_eq_some {vs ws : List (Version α)} :
    folded vs = some ws ↔ vs ≠ [] ∧ ws = reconcileAll [] vs := by
  cases vs <;> simp [folded, eq_comm]

@[simp]
theorem folded_append_singleton (vs : List (Version α)) (v : Version α) :
    folded (vs ++ [v]) = some (reconcile ((folded vs).getD []) v) := by
  cases vs
  case nil       => rfl
  case cons w vs => simp [folded, reconcileAll]

end HintOp

namespace HintStore

variable {s : HintStore α} {t t' : NodeId} {k k' : Key} {v : Version α}

def held (s : HintStore α) (t : NodeId) (k : Key) : Option (List (Version α)) :=
  ((s.load t).lookup k).map (·.map Version.fromDict)

theorem mem_pendingFor_iff {vs : List (Version α)} :
    (k, vs) ∈ s.pendingFor t ↔ s.held t k = some vs := by
  simp only [pendingFor, held, List.mem_map, Option.map_eq_some_iff, Prod.mk.injEq]
  constructor
  case mp =>
    rintro ⟨⟨k, ds⟩, he, rfl, hd⟩
    exact ⟨ds, AList.mem_lookup_iff.mpr he, hd⟩
  case mpr =>
    rintro ⟨ds, hl, hd⟩
    exact ⟨⟨k, ds⟩, AList.mem_lookup_iff.mp hl, rfl, hd⟩

section Calls

theorem held_add (t' : NodeId) (k' : Key) : (s.add t k v).held t' k' =
    if (t', k') = (t, k) then some (reconcile ((s.held t k).getD []) v) else s.held t' k' := by
  by_cases ht : t' = t
  case neg => simp [held, add, load_save_of_ne ht, ht]
  case pos =>
    subst ht
    by_cases hk : k' = k
    case neg => simp [held, add, AList.lookup_insert_ne hk, hk]
    case pos =>
      subst hk
      cases hl : (s.load t').lookup k' <;> simp [held, add, hl]

theorem held_clearKey (t' : NodeId) (k' : Key) : (s.clearKey t k).held t' k' =
    if (t', k') = (t, k) then none else s.held t' k' := by
  by_cases ht : t' = t
  case neg => simp [held, load_clearKey_of_ne ht, ht]
  case pos =>
    subst ht
    by_cases hk : k' = k
    case neg => simp [held, load_clearKey_self, AList.lookup_erase_ne hk, hk]
    case pos =>
      subst hk
      simp [held, load_clearKey_self]

-- An operation changes nothing for any other pair.
theorem held_apply_of_ne (op : HintOp α) (h : (t, k) ≠ op.pair) :
    (op.apply s).held t k = s.held t k := by
  cases op
  case add t' k' v    => exact (held_add t k).trans <| if_neg h
  case clearKey t' k' => exact (held_clearKey t k).trans <| if_neg h

theorem held_apply {vs : List (Version α)} (h : s.held t k = HintOp.folded vs) (op : HintOp α) :
    (op.apply s).held t k = HintOp.folded (op.collect t k vs) := by
  cases op <;> simp only [HintOp.apply, HintOp.collect, held_add, held_clearKey] <;> split
  case add.isTrue e =>
    obtain ⟨rfl, rfl⟩ := Prod.mk.inj e
    rw [h, HintOp.folded_append_singleton]
  case clearKey.isTrue  => rfl
  case add.isFalse      => exact h
  case clearKey.isFalse => exact h

theorem held_run (history : List (HintOp α)) (t : NodeId) (k : Key) :
    (HintOp.run history).held t k = HintOp.folded (HintOp.added t k history) := by
  suffices h : ∀ (s : HintStore α) vs, s.held t k = HintOp.folded vs →
      (history.foldl HintOp.apply s).held t k =
        HintOp.folded (history.foldl (HintOp.collect t k) vs) from
    h .empty [] (by simp [held, HintOp.folded])
  induction history
  case nil           => exact fun _ _ h => h
  case cons op _ hi  => exact fun _ _ h => hi _ _ <| held_apply h op

end Calls

section Blobs

-- The last key of a target takes its blob with it.
def NoEmptyBlob (s : HintStore α) : Prop :=
  ∀ t, s.storage.get t ≠ some ∅

theorem NoEmptyBlob.save (h : s.NoEmptyBlob) {b : HintBlob α} (hb : b ≠ ∅) :
    (s.save t b).NoEmptyBlob := by
  intro t'
  by_cases ht : t' = t
  case neg => exact (Storage.get_put_of_ne ht).trans_ne <| h t'
  case pos =>
    subst ht
    simpa [HintStore.save] using hb

theorem NoEmptyBlob.apply (h : s.NoEmptyBlob) (op : HintOp α) : (op.apply s).NoEmptyBlob := by
  cases op
  case add t k v =>
    apply h.save
    intro he
    have hm : k ∈ (∅ : HintBlob α) := he ▸ AList.mem_insert _ |>.mpr (.inl rfl)
    exact AList.notMem_empty k hm
  case clearKey t k =>
    simp only [HintOp.apply, clearKey]
    split_ifs with hm he
    case pos =>
      intro t'
      by_cases ht : t' = t
      case pos => simp [ht]
      case neg => exact (Storage.get_delete_of_ne ht).trans_ne <| h t'
    case neg => exact h.save fun e => he (by simp [e])
    case neg => exact h

theorem noEmptyBlob_run (history : List (HintOp α)) : (HintOp.run history).NoEmptyBlob := by
  suffices h : ∀ s : HintStore α, s.NoEmptyBlob → (history.foldl HintOp.apply s).NoEmptyBlob from
    h .empty fun _ => by simp [empty]
  induction history
  case nil          => exact fun _ h => h
  case cons op _ hi => exact fun _ h => hi _ <| h.apply op

theorem NoEmptyBlob.hasPending_iff (h : s.NoEmptyBlob) (t : NodeId) :
    s.hasPending t = true ↔ s.pendingFor t ≠ [] := by
  have ht := h t
  rw [hasPending, Storage.exists'_eq, pendingFor, load, Ne, List.map_eq_nil_iff]
  cases hg : s.storage.get t
  case none   => simp
  case some b =>
    rw [hg] at ht
    simpa using fun he => ht <| congrArg some <| AList.ext he

end Blobs

theorem folded_antichain {vs ws : List (Version α)} (h : HintOp.folded vs = some ws) :
    ws ≠ [] ∧ ws.Pairwise fun v w => v.clock.compare w.clock = .concurrent := by
  obtain ⟨hne, rfl⟩ := HintOp.folded_eq_some.mp h
  have m := Antichain.IsMaximal.of_insertAll vs
  rw [reconcileAll_eq_insertAll]
  refine ⟨?_, m.pairwise.imp compare_eq_concurrent_iff.mpr⟩
  obtain ⟨v, hv⟩ := List.exists_mem_of_ne_nil vs hne
  obtain ⟨w, hw, -⟩ := m.covers v hv
  exact List.ne_nil_of_mem hw

open HintOp in
theorem hintStore_map_of_antichains (history : List (HintOp α)) :
    (∀ t, ((run history).pendingFor t).Pairwise (·.1 ≠ ·.1) ∧
      (∀ k vs, (k, vs) ∈ (run history).pendingFor t ↔
        added t k history ≠ [] ∧ vs = reconcileAll [] (added t k history)) ∧
      (∀ k vs, (k, vs) ∈ (run history).pendingFor t →
        vs ≠ [] ∧ vs.Pairwise fun v w => v.clock.compare w.clock = .concurrent) ∧
      ((run history).hasPending t = true ↔ (run history).pendingFor t ≠ [])) ∧
    ∀ op t k, (t, k) ≠ op.pair → ∀ vs, (k, vs) ∈ (run (history ++ [op])).pendingFor t ↔
      (k, vs) ∈ (run history).pendingFor t := by
  simp only [mem_pendingFor_iff, held_run]
  refine ⟨fun t => ⟨pendingFor_pairwise _ t, ?fold, ?antichain, ?pending⟩, ?frame⟩
  case fold      => exact fun _ _ => folded_eq_some
  case antichain => exact fun _ _ h => folded_antichain h
  case pending   => exact (noEmptyBlob_run history).hasPending_iff t
  case frame =>
    intro op t k h vs
    have hr : run (history ++ [op]) = op.apply (run history) := by simp [run]
    rw [← held_run, ← held_run, hr, held_apply_of_ne op h]

end HintStore
end DynamoKV
