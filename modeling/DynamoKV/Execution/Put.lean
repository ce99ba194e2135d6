import DynamoKV.Execution.State

-- What one `put` returns and stores, as a function of what the replicas make of its requests.
namespace DynamoKV

variable {α β : Type}

namespace QuorumCall

-- All of `_quorum_op`, given its outcome at each node and the order in which the futures complete.
def run (prefs : List NodeId) (outcome : NodeId → Option β) (order : List NodeId) : QuorumCall β :=
  order.foldl next (submit prefs)
where
  next (q : QuorumCall β) (r : NodeId) : QuorumCall β :=
    match outcome r with
    | none   => q.complete r false
    | some b => q.handle r b |>.complete r true

variable {outcome : NodeId → Option β} {q : QuorumCall β}

theorem handled_handle (h : r ∉ q.handled.map Prod.fst) :
    (q.handle r b).handled = q.handled ++ [(r, b)] := by
  rw [handle, if_neg h]

theorem prefs_next : (run.next outcome q r).prefs = q.prefs := by
  unfold run.next
  split <;> simp

theorem handled_next (hh : r' ∉ q.handled.map Prod.fst) (hne : r' ≠ r) :
    r' ∉ (run.next outcome q r).handled.map Prod.fst := by
  unfold run.next
  split
  case h_1 => simpa using hh
  case h_2 b _ =>
    simp only [handled_complete, List.mem_map, not_exists, not_and]
    intro x hx e
    cases mem_handled_handle hx
    case inl hx => exact hh <| List.mem_map.mpr ⟨x, hx, e⟩
    case inr hx => exact hne <| e.symm.trans <| congrArg Prod.fst hx

theorem completed_next (hr : r ∈ q.prefs) (hc : r ∉ q.completed.map Prod.fst)
    (hh : r ∉ q.handled.map Prod.fst) :
    (run.next outcome q r).completed = q.completed ++ [(r, outcome r)] := by
  unfold run.next
  cases ho : outcome r
  case none =>
    have h : q.Completes r false := ⟨hr, hc, by simp⟩
    simp [complete, h, result]
  case some b =>
    have h : (q.handle r b).Completes r true := by
      refine ⟨by simpa using hr, by simpa using hc, fun _ => ?_⟩
      simp [handled_handle hh]
    have hn : q.handled.lookup r = none := by
      refine List.lookup_eq_none_iff.mpr fun x hx => bne_iff_ne.mpr fun e => ?_
      exact hh <| List.mem_map.mpr ⟨x, hx, e.symm⟩
    simp [complete, h, result, handled_handle hh, List.lookup_append, hn]

-- Each future completes once, with the outcome at its node.
theorem completed_run {prefs order : List NodeId} (hd : order.Nodup) (hs : order ⊆ prefs) :
    (run prefs outcome order).completed = order.map fun r => (r, outcome r) := by
  suffices h : ∀ q : QuorumCall β, order ⊆ q.prefs → (∀ r ∈ order, r ∉ q.completed.map Prod.fst) →
      (∀ r ∈ order, r ∉ q.handled.map Prod.fst) →
      (order.foldl (run.next outcome) q).completed =
        q.completed ++ order.map fun r => (r, outcome r) by
    simpa [run, submit] using h (submit prefs) hs (by simp [submit]) (by simp [submit])
  clear hs
  induction order
  case nil => simp
  case cons r order hi =>
    intro q hs hc hh
    obtain ⟨hr, hd⟩ := List.nodup_cons.mp hd
    have he : (run.next outcome q r).completed = q.completed ++ [(r, outcome r)] :=
      completed_next (hs List.mem_cons_self) (hc r List.mem_cons_self) (hh r List.mem_cons_self)
    have hne : ∀ r' ∈ order, r' ≠ r := fun r' hr' e => hr <| e ▸ hr'
    rw [List.foldl_cons, hi hd, he, List.map_cons, List.append_assoc, List.singleton_append]
    · intro r' hr'
      rw [prefs_next]
      exact hs <| List.mem_cons_of_mem _ hr'
    · intro r' hr'
      rw [he, List.map_append, List.mem_append, not_or]
      exact ⟨hc r' <| List.mem_cons_of_mem _ hr', by simpa using hne r' hr'⟩
    · exact fun r' hr' => handled_next (hh r' <| List.mem_cons_of_mem _ hr') (hne r' hr')

theorem prefs_run {prefs order : List NodeId} : (run prefs outcome order).prefs = prefs := by
  suffices h : ∀ q : QuorumCall β, (order.foldl (run.next outcome) q).prefs = q.prefs from
    h (submit prefs)
  induction order
  case nil           => exact fun _ => rfl
  case cons r _ hi   => exact fun q => (hi _).trans prefs_next

-- The loop misses no success that it needs, whichever the order of completion.
theorem reached_run {prefs order : List NodeId} (hd : prefs.Nodup) (ho : order.Perm prefs)
    (h : t ≤ prefs.countP fun r => (outcome r).isSome) : (run prefs outcome order).Reached t := by
  unfold Reached successes
  rw [completed_run (ho.nodup_iff.mpr hd) ho.subset]
  apply le_length_collect
  rw [List.countP_map, List.length_nil, Nat.zero_add]
  exact h.trans_eq (ho.countP_eq _).symm

end QuorumCall

-- A call of `put`. The coordinator believes the nodes in `down` to be down, and each replica either
-- answers the read, or accepts the write, or makes the future of its request fail.
structure PutCall (cfg : Config) (α : Type) where
  coord      : NodeId
  key        : Key
  value      : α
  prefs      : List NodeId
  down       : List NodeId
  answer     : NodeId → Option (List (Version α))
  accept     : NodeId → Option Unit
  readOrder  : List NodeId
  writeOrder : List NodeId
  placed     : cfg.preferenceList key = some prefs
  notDown    : coord ∉ down
  reads      : readOrder.Perm prefs
  writes     : writeOrder.Perm (prefs.filter (· ∉ down))

namespace PutCall

variable {cfg : Config} (c : PutCall cfg α)

def op : Op α :=
  { Op.submit c.coord c.key (.put c.value) 0 c.prefs with
    read := .run c.prefs c.answer c.readOrder }

def write (merged : List (Version α)) : Write α :=
  let w := c.op.startWrite cfg c.down merged c.value
  { w with call := .run w.call.prefs c.accept c.writeOrder }

-- All of `put`, or none if an exception leaves `_deliver_hint`. That the holder of the hints
-- answers is not needed.
def put (builds : Key → α → Bool) : Option (Response α (Version α)) :=
  match c.op.mergedRead cfg with
  | .error e   => some <| .error e
  | .ok merged =>
    if c.op.HintRaises cfg builds c.down then none
    else some <| c.op.writeResponse cfg <| c.write merged

theorem prefs_op : c.op.prefs = c.prefs :=
  QuorumCall.prefs_run

theorem nodup_prefs : c.prefs.Nodup :=
  HashRing.getPreferenceList_nodup (HashRing.built_ofNodes ..) c.placed

theorem mergedRead_op
    (h : cfg.readThreshold c.prefs ≤ c.prefs.countP fun r => (c.answer r).isSome) :
    c.op.mergedRead cfg = .ok (mergeReplies <| c.op.replies cfg) := by
  rw [Op.mergedRead, if_pos]
  rw [prefs_op]
  exact QuorumCall.reached_run c.nodup_prefs c.reads h

theorem writeResponse_write (h : cfg.writeThreshold c.prefs ≤
      c.prefs.countP fun r => r ∉ c.down ∧ (c.accept r).isSome) (merged : List (Version α)) :
    c.op.writeResponse cfg (c.write merged) = .ok (c.op.newVersion merged c.value) := by
  have hp : (c.op.startWrite cfg c.down merged c.value).call.prefs =
      c.prefs.filter (· ∉ c.down) := by
    rw [← c.prefs_op]
    rfl
  rw [Op.writeResponse, if_pos]
  · rfl
  · rw [prefs_op, write, hp]
    refine QuorumCall.reached_run (c.nodup_prefs.filter _) c.writes <| h.trans_eq ?_
    rw [List.countP_filter]
    congr
    funext r
    rw [Bool.and_comm, Bool.decide_and, Bool.decide_eq_true]

-- A coordinator which is right about who is up never misses a quorum that there is, if it can build
-- the requests which leave hints for the other nodes.
theorem put_eq_ok (c : PutCall cfg α) (builds : Key → α → Bool)
    (hr : cfg.readThreshold c.prefs ≤ c.prefs.countP fun r => (c.answer r).isSome)
    (hw : cfg.writeThreshold c.prefs ≤
      c.prefs.countP fun r => r ∉ c.down ∧ (c.accept r).isSome)
    (hb : ¬c.op.HintRaises cfg builds c.down) :
    ∃ merged, c.op.mergedRead cfg = .ok merged ∧
      c.put builds = some (.ok (c.op.newVersion merged c.value)) := by
  refine ⟨_, c.mergedRead_op hr, ?_⟩
  rw [put, c.mergedRead_op hr]
  simp only [hb, if_false, c.writeResponse_write hw]

-- All replicas are up, but the coordinator believes one or two of its peers to be down. The ring
-- has another node, which holds hints. A value of `none` is one which JSON does not have.
def suspicious (value : Option String) (down : List NodeId) (h : "a" ∉ down) (order : List NodeId)
    (writes : order.Perm (["a", "b", "c"].filter (· ∉ down))) :
    PutCall (.ofNodes ["a", "b", "c", "d"] 3 2 2) (Option String) where
  coord      := "a"
  key        := "a"
  value      := value
  prefs      := ["a", "b", "c"]
  down       := down
  answer _   := some []
  accept _   := some ()
  readOrder  := ["a", "b", "c"]
  writeOrder := order
  placed     := by decide
  notDown    := h
  reads      := by decide
  writes     := writes

theorem put_eq_ok_suspicious : ∃ merged,
    (suspicious (some "v") ["c"] (by decide) ["a", "b"] (by decide)).op.mergedRead
      (.ofNodes ["a", "b", "c", "d"] 3 2 2) = .ok merged ∧
    (suspicious (some "v") ["c"] (by decide) ["a", "b"] (by decide)).put (fun _ v => v.isSome) =
      some (.ok ((suspicious (some "v") ["c"] (by decide) ["a", "b"] (by decide)).op.newVersion
        merged (some "v"))) :=
  put_eq_ok _ _ (by decide) (by decide) (by decide)

theorem not_put_eq_ok_of_quorum :
    ¬∀ (cfg : Config) (c : PutCall cfg (Option String)) (builds : Key → Option String → Bool),
      builds c.key c.value →
      cfg.readThreshold c.prefs ≤ c.prefs.countP (fun r => (c.answer r).isSome) →
      cfg.writeThreshold c.prefs ≤ c.prefs.countP (fun r => (c.accept r).isSome) →
      ∃ merged, c.op.mergedRead cfg = .ok merged ∧
        c.put builds = some (.ok (c.op.newVersion merged c.value)) := by
  intro h
  obtain ⟨merged, -, h⟩ :=
    h _ (suspicious (some "v") ["b", "c"] (by decide) ["a"] (by decide)) (fun _ v => v.isSome) rfl
      (by decide) (by decide)
  have hp : (suspicious (some "v") ["b", "c"] (by decide) ["a"] (by decide)).put
      (fun _ v => v.isSome) = some (.error (.writeQuorum "a")) := rfl
  rw [hp] at h
  cases Option.some.inj h

end PutCall

section Supersede

variable {op : Op α} {merged : List (Version α)} {value : α}

theorem lt_newVersion (hv : v ∈ merged) (h : w ≤ v) : w < op.newVersion merged value := by
  have hm : v.clock ∈ merged.map (·.clock) := List.mem_map_of_mem hv
  exact lt_of_le_of_lt (α := VectorClock) h <| VectorClock.lt_merge_incremented hm op.coord

-- A put supersedes all that it has read, even forged clocks, so it collapses the siblings it saw.
theorem put_supersedes_read (op : Op α) (merged : List (Version α)) (value : α) :
    (∀ v ∈ merged, (op.newVersion merged value).clock.compare v.clock = .dominates ∧
      ∀ c, v.clock.dominatesOrEqual c →
        (op.newVersion merged value).clock.compare c = .dominates) ∧
    ∀ (n : Node α) key,
      (∀ w ∈ n.getLocal key, ∃ v ∈ merged, v.clock.dominatesOrEqual w.clock) →
      (n.putLocal key (op.newVersion merged value)).getLocal key =
        [op.newVersion merged value] := by
  simp only [VectorClock.dominatesOrEqual_iff, VectorClock.compare_eq_dominates_iff]
  refine ⟨fun v hv => ⟨lt_newVersion hv le_rfl, fun c hc => ?_⟩, fun n key h => ?_⟩
  · exact lt_newVersion (w := ⟨v.value, c⟩) hv hc
  · rw [Node.getLocal_putLocal_self, reconcile_eq_insertMax]
    refine Antichain.insertMax_eq_singleton fun w hw => ?_
    obtain ⟨v, hv, hle⟩ := h w hw
    exact lt_newVersion hv hle

end Supersede
end DynamoKV
