import DynamoKV.Lib.Quorum
import DynamoKV.Objects.VectorClock

namespace DynamoKV

-- One run of `_quorum_op`. The operation is submitted to each node in `prefs`, the nodes in
-- `handled` have executed it, and `completed` lists the futures in the order of their completion.
-- A future without a result has raised an exception.
structure QuorumCall (β : Type*) where
  prefs     : List NodeId
  handled   : List (NodeId × β)
  completed : List (NodeId × Option β)
  nodup     : (completed.map Prod.fst).Nodup
  subset    : ∀ c ∈ completed, c.1 ∈ prefs
  justified : ∀ r b, (r, some b) ∈ completed → (r, b) ∈ handled

namespace QuorumCall

variable {β : Type*} {q : QuorumCall β}

def submit (prefs : List NodeId) : QuorumCall β where
  prefs     := prefs
  handled   := []
  completed := []
  nodup     := .nil
  subset    := by simp
  justified := by simp

-- A node which executes the operation again does not answer again.
def handle (q : QuorumCall β) (r : NodeId) (b : β) : QuorumCall β :=
  if r ∈ q.handled.map Prod.fst then q
  else { q with
    handled   := q.handled ++ [(r, b)]
    justified := fun r' b' h => List.mem_append_left _ <| q.justified r' b' h }

-- A future succeeds only after its node has executed the operation, but it may fail at any time.
structure Completes (q : QuorumCall β) (r : NodeId) (ok : Bool) : Prop where
  mem     : r ∈ q.prefs
  pending : r ∉ q.completed.map Prod.fst
  handled : ok → r ∈ q.handled.map Prod.fst

instance : Decidable (Completes q r ok) :=
  decidable_of_iff (r ∈ q.prefs ∧ r ∉ q.completed.map Prod.fst ∧
      (ok → r ∈ q.handled.map Prod.fst))
    ⟨fun ⟨h₁, h₂, h₃⟩ => ⟨h₁, h₂, h₃⟩, fun ⟨h₁, h₂, h₃⟩ => ⟨h₁, h₂, h₃⟩⟩

def result (q : QuorumCall β) (r : NodeId) (ok : Bool) : Option β :=
  if ok then q.handled.lookup r else none

theorem mem_handled_of_result (h : some b = q.result r ok) : (r, b) ∈ q.handled := by
  unfold result at h
  split at h
  case isFalse => contradiction
  case isTrue  =>
    have ⟨pre, post, he, _⟩ := List.lookup_eq_some_iff.mp h.symm
    simp [he]

theorem Completes.nodup (h : q.Completes r ok) (o : Option β) :
    ((q.completed ++ [(r, o)]).map Prod.fst).Nodup := by
  rw [List.map_append]
  refine q.nodup.append (by simp) fun a ha hr => ?_
  have ha' : a = r := List.mem_singleton.mp hr
  exact h.pending <| ha' ▸ ha

def complete (q : QuorumCall β) (r : NodeId) (ok : Bool) : QuorumCall β :=
  if h : q.Completes r ok then { q with
    completed := q.completed ++ [(r, q.result r ok)]
    nodup     := h.nodup _
    subset c hc := by
      cases List.mem_append.mp hc
      case inl hc => exact q.subset c hc
      case inr hc => exact List.mem_singleton.mp hc ▸ h.mem
    justified r' b' hc := by
      cases List.mem_append.mp hc
      case inl hc => exact q.justified r' b' hc
      case inr hc =>
        have ⟨hr, hb⟩ := Prod.mk.inj <| List.mem_singleton.mp hc
        exact hr ▸ mem_handled_of_result hb }
  else q

-- The loop over `as_completed(futures)`.
def collect (threshold : Nat) (successes : List (NodeId × β)) :
    List (NodeId × Option β) → List (NodeId × β)
  | []                     => successes
  | (_, none) :: futures   => collect threshold successes futures
  | (r, some b) :: futures =>
    let successes := successes ++ [(r, b)]
    if successes.length ≥ threshold then successes else collect threshold successes futures

def successes (q : QuorumCall β) (threshold : Nat) : List (NodeId × β) :=
  collect threshold [] q.completed

-- The loop ends at its break or when all futures have completed.
def Finished (q : QuorumCall β) (threshold : Nat) : Prop :=
  (q.successes threshold ≠ [] ∧ threshold ≤ (q.successes threshold).length) ∨
  q.completed.length = q.prefs.length

instance : Decidable (q.Finished threshold) :=
  decidable_of_iff ((¬(q.successes threshold).isEmpty ∧
      threshold ≤ (q.successes threshold).length) ∨ q.completed.length = q.prefs.length)
    (by simp [Finished])

-- Enough nodes have answered.
def Reached (q : QuorumCall β) (threshold : Nat) : Prop :=
  threshold ≤ (q.successes threshold).length

instance : Decidable (q.Reached threshold) :=
  inferInstanceAs (Decidable (_ ≤ _))

section Handle

@[simp]
theorem prefs_handle : (q.handle r b).prefs = q.prefs := by
  unfold handle
  split <;> rfl

@[simp]
theorem completed_handle : (q.handle r b).completed = q.completed := by
  unfold handle
  split <;> rfl

@[simp]
theorem successes_handle : (q.handle r b).successes t = q.successes t := by
  simp [successes]

theorem handled_subset_handle : q.handled ⊆ (q.handle r b).handled := by
  unfold handle
  split
  case isTrue  => exact List.Subset.refl _
  case isFalse => exact List.subset_append_left ..

theorem mem_handled_handle (h : x ∈ (q.handle r b).handled) : x ∈ q.handled ∨ x = (r, b) := by
  unfold handle at h
  split at h
  case isTrue  => exact .inl h
  case isFalse => simpa using h

@[simp]
theorem prefs_complete : (q.complete r ok).prefs = q.prefs := by
  unfold complete
  split <;> rfl

@[simp]
theorem handled_complete : (q.complete r ok).handled = q.handled := by
  unfold complete
  split <;> rfl

end Handle

section Collect

variable {acc cs cs' : List _}

theorem mem_collect {x : NodeId × β} (h : x ∈ collect t acc cs) :
    x ∈ acc ∨ (x.1, some x.2) ∈ cs := by
  induction cs generalizing acc
  case nil => exact .inl h
  case cons c cs hi =>
    match c with
    | (r, none) => exact (hi h).imp_right (List.mem_cons_of_mem _)
    | (r, some b) =>
      have happ : x ∈ acc ++ [(r, b)] → x ∈ acc ∨ (x.1, some x.2) ∈ (r, some b) :: cs := by
        simp only [List.mem_append, List.mem_singleton]
        exact Or.imp_right fun e => e ▸ List.mem_cons_self
      simp only [collect] at h
      split at h
      case isTrue  => exact happ h
      case isFalse => exact (hi h).elim happ (.inr <| List.mem_cons_of_mem _ ·)

-- Successes are collected until there are enough.
theorem le_length_collect (h : t ≤ acc.length + cs.countP fun c => c.2.isSome) :
    t ≤ (collect t acc cs : List (NodeId × β)).length := by
  induction cs generalizing acc
  case nil => simpa [collect] using h
  case cons c cs hi =>
    match c with
    | (r, none)   => exact hi (by simpa using h)
    | (r, some b) =>
      simp only [collect]
      split
      case isTrue hl => exact hl
      case isFalse   =>
        refine hi ?_
        simp only [List.countP_cons, Option.isSome_some, if_true, List.length_append,
          List.length_singleton] at h ⊢
        omega

theorem collect_nodup (h : (acc.map Prod.fst ++ cs.map Prod.fst).Nodup) :
    ((collect t acc cs : List (NodeId × β)).map Prod.fst).Nodup := by
  induction cs generalizing acc
  case nil => simpa [collect] using h
  case cons c cs hi =>
    match c with
    | (r, none) =>
      exact hi <| h.sublist <| (List.Sublist.refl _).append (List.sublist_cons_self ..)
    | (r, some b) =>
      have h' : ((acc ++ [(r, b)]).map Prod.fst ++ cs.map Prod.fst).Nodup := by simpa using h
      simp only [collect]
      split
      case isTrue  => exact h'.sublist <| List.sublist_append_left ..
      case isFalse => exact hi h'

-- Once enough futures have succeeded, further ones are not looked at.
theorem collect_append (h : t ≤ (collect t acc cs : List (NodeId × β)).length)
    (ha : acc.length < t) : collect t acc (cs ++ cs') = collect t acc cs := by
  induction cs generalizing acc
  case nil =>
    simp only [collect] at h
    omega
  case cons c cs hi =>
    match c with
    | (r, none) => exact hi h ha
    | (r, some b) =>
      simp only [List.cons_append, collect] at h ⊢
      split
      case isTrue  => rfl
      case isFalse hl =>
        rw [if_neg hl] at h
        exact hi h (by omega)

end Collect

section Successes

theorem completed_of_mem_successes {x : NodeId × β} (h : x ∈ q.successes t) :
    (x.1, some x.2) ∈ q.completed :=
  (mem_collect h).resolve_left List.not_mem_nil

theorem handled_of_mem_successes {x : NodeId × β} (h : x ∈ q.successes t) : x ∈ q.handled :=
  q.justified _ _ <| completed_of_mem_successes h

theorem prefs_of_mem_successes {x : NodeId × β} (h : x ∈ q.successes t) : x.1 ∈ q.prefs :=
  q.subset _ <| completed_of_mem_successes h

theorem successes_nodup : ((q.successes t).map Prod.fst).Nodup :=
  collect_nodup <| by simpa using q.nodup

theorem successes_subset : (q.successes t).map Prod.fst ⊆ q.prefs := by
  intro r hr
  obtain ⟨x, hx, rfl⟩ := List.mem_map.mp hr
  exact prefs_of_mem_successes hx

-- Some node counts for both calls, if their thresholds add up to more than all nodes.
theorem Reached.exists_overlap {γ : Type*} {q' : QuorumCall γ} {nodes : List NodeId}
    (hr : q.Reached t) (hr' : q'.Reached t') (hp : q.prefs ⊆ nodes) (hp' : q'.prefs ⊆ nodes)
    (h : nodes.length < t + t') :
    ∃ x ∈ q.successes t, x.1 ∈ (q'.successes t').map Prod.fst := by
  simp only [Reached] at hr hr'
  obtain ⟨r, hr, hr'⟩ := Quorum.exists_mem_both (q.successes_nodup (t := t))
    (q'.successes_nodup (t := t')) (List.Subset.trans successes_subset hp)
    (List.Subset.trans successes_subset hp') (by simp only [List.length_map]; omega)
  obtain ⟨x, hx, rfl⟩ := List.mem_map.mp hr
  exact ⟨x, hx, hr'⟩

theorem reached_of_completed (h : q.completed.length = q.prefs.length) (ht : t ≤ q.prefs.length)
    (hf : ∀ r, (r, none) ∉ q.completed) : q.Reached t := by
  have hc : q.completed.countP (fun c => c.2.isSome) = q.completed.length := by
    refine List.countP_eq_length.mpr fun c hc => Option.isSome_iff_ne_none.mpr fun hn => ?_
    exact hf c.1 <| hn ▸ hc
  exact le_length_collect (by simpa [hc, h] using ht)

theorem Reached.successes_complete (hr : q.Reached t) (ht : 0 < t) :
    (q.complete r ok).successes t = q.successes t := by
  unfold complete
  split
  case isTrue  => exact collect_append hr ht
  case isFalse => rfl

-- The nodes whose futures have succeeded, including those which the loop does not look at.
def acked (q : QuorumCall β) : List NodeId :=
  q.completed.filter (·.2.isSome) |>.map Prod.fst

theorem mem_acked : r ∈ q.acked ↔ ∃ b, (r, some b) ∈ q.completed := by
  simp [acked, Option.isSome_iff_exists]

theorem acked_nodup : q.acked.Nodup :=
  q.nodup.sublist <| List.filter_sublist.map _

theorem acked_subset : q.acked ⊆ q.prefs := by
  intro r hr
  obtain ⟨b, hb⟩ := mem_acked.mp hr
  exact q.subset _ hb

theorem length_successes_le : (q.successes t).length ≤ q.acked.length := by
  have hs : (q.successes t).map Prod.fst ⊆ q.acked := by
    intro r hr
    obtain ⟨x, hx, rfl⟩ := List.mem_map.mp hr
    exact mem_acked.mpr ⟨x.2, completed_of_mem_successes hx⟩
  simpa using (successes_nodup.subperm hs).length_le

@[simp]
theorem acked_handle : (q.handle r b).acked = q.acked := by
  simp [acked]

theorem acked_prefix_complete : q.acked <+: (q.complete r ok).acked := by
  unfold complete
  split
  case isTrue  => simp [acked]
  case isFalse => exact List.prefix_rfl

theorem Completes.completed (h : q.Completes r ok) :
    (q.complete r ok).completed = q.completed ++ [(r, q.result r ok)] := by
  rw [complete, dif_pos h]

theorem Completes.result_eq_none (h : q.Completes r ok) : q.result r ok = none ↔ ok = false := by
  unfold result
  cases ok
  case false => simp
  case true  =>
    obtain ⟨x, hx, hr⟩ := List.mem_map.mp <| h.handled rfl
    have hn : q.handled.lookup r ≠ none := by
      intro hn
      have hne := List.lookup_eq_none_iff.mp hn x hx
      simp [hr] at hne
    simpa using hn

end Successes
end QuorumCall
end DynamoKV
