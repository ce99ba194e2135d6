import DynamoKV.Execution.Theorems.Overlap
import DynamoKV.Objects.Ring.Disruption

-- What becomes of hints over a step.
namespace DynamoKV

open Antichain

variable {α : Type} {cfg : Config} {s s' : State α} {l : Label α} {k : Key}

section Holder

-- More nodes than replicas, none of whose virtual nodes collide.
structure Config.Spare (cfg : Config) : Prop where
  more     : cfg.n < cfg.clusterNodes.toFinset.card
  distinct : Set.InjOn cfg.hash (HashRing.labels cfg.virtualNodes {m | m ∈ cfg.clusterNodes})

theorem Config.Spare.canonical (h : cfg.Spare) : HashRing.Canonical cfg.hash cfg.ring ∧
    cfg.ring.nodes = cfg.clusterNodes.toFinset := by
  have hd : Set.InjOn cfg.hash
      (HashRing.labels cfg.virtualNodes (HashRing.involved cfg.clusterNodes [])) := by
    simpa [HashRing.involved] using h.distinct
  obtain ⟨r, e, c, hn, _⟩ := HashRing.canonical_history hd
  cases Option.some.inj e
  exact ⟨c, hn⟩

-- There is always a neighbor to hold the hints for the preferred nodes.
theorem Config.Spare.exists_hintHolder (h : cfg.Spare) (hn : 0 < cfg.n)
    (hp : cfg.preferenceList k = some prefs) :
    ∃ holder, cfg.hintHolder k prefs = some holder ∧ holder ∉ prefs := by
  obtain ⟨c, hnodes⟩ := h.canonical
  have hne : cfg.ring.sortedHashes ≠ [] := by
    intro he
    simp [preferenceList, HashRing.getPreferenceList, he] at hp
  obtain ⟨_, hp'⟩ := List.exists_mem_of_ne_nil _ hne
  obtain ⟨m, hm, i, hi, _⟩ := c.mem_sortedHashes.mp hp'
  have hv := Nat.zero_lt_of_lt hi
  have hl := c.length_owners k hv
  have hd := HashRing.nodup_owners cfg.hash cfg.ring k
  have hlt : cfg.n < (HashRing.owners cfg.hash cfg.ring k).length := by
    rw [hl, hnodes]
    exact h.more
  have he : cfg.preferenceList k = _ := c.getPreferenceList_eq hv hm hn
  cases Option.some.inj <| hp.symm.trans he
  have hs : (HashRing.owners cfg.hash cfg.ring k).take (cfg.n + 1) = _ :=
    List.take_succ_eq_append_getElem hlt
  have hmem : (HashRing.owners cfg.hash cfg.ring k)[cfg.n] ∉
      (HashRing.owners cfg.hash cfg.ring k).take cfg.n := by
    have hd := hd.sublist <| List.take_sublist (cfg.n + 1) _
    rw [hs] at hd
    exact fun hm => List.disjoint_of_nodup_append hd hm <| List.mem_singleton_self _
  rw [hintHolder, List.length_take_of_le hlt.le, c.getPreferenceList_eq hv hm cfg.n.succ_pos, hs,
    Option.bind_some, List.find?_append, List.find?_eq_none.mpr (by simp)]
  exact ⟨_, by simp [hmem], hmem⟩

end Holder

section Grows

-- Hints are only added.
inductive HintStore.Grows : HintStore α → HintStore α → Prop
  | refl : Grows hs hs
  | add : Grows hs hs' → Grows hs (hs'.add target key v)

namespace HintStore.Grows

variable {hs hs' hs'' : HintStore α}

theorem trans (h : hs.Grows hs') (h' : hs'.Grows hs'') : hs.Grows hs'' := by
  induction h'
  case refl     => exact h
  case add _ hi => exact .add hi

theorem covers (h : hs.Grows hs') (hc : Covers (hs.pending t k) v) :
    Covers (hs'.pending t k) v := by
  induction h
  case refl => exact hc
  case add t' k' w _ hi =>
    by_cases he : t = t' ∧ k = k'
    case pos =>
      obtain ⟨rfl, rfl⟩ := he
      rw [pending_add_self]
      exact covers_reconcile hi w
    case neg => rwa [pending_add_of_ne (not_and_or.mp he)]

theorem pairwise (h : hs.Grows hs') (hp : Pairwise (hs.pending t k)) :
    Pairwise (hs'.pending t k) := by
  induction h
  case refl => exact hp
  case add t' k' w _ hi =>
    by_cases he : t = t' ∧ k = k'
    case pos =>
      obtain ⟨rfl, rfl⟩ := he
      rw [pending_add_self, reconcile_eq_insertMax]
      exact hi.insertMax w
    case neg => rwa [pending_add_of_ne (not_and_or.mp he)]

end HintStore.Grows

namespace State

def HintsGrow (s s' : State α) : Prop :=
  ∀ r, (s.node r).hintStore.Grows (s'.node r).hintStore

theorem hintsGrow_modifyNode {f : Node α → Node α}
    (h : (s.node r).hintStore.Grows (f (s.node r)).hintStore) : HintsGrow s (s.modifyNode r f) := by
  intro r'
  rw [node_modifyNode]
  split
  case isTrue hr => exact hr ▸ h
  case isFalse   => exact .refl

theorem hintsGrow_deliverHint : HintsGrow s (s.deliverHint cfg c g t k v) := by
  unfold deliverHint
  split
  case isTrue  => exact hintsGrow_modifyNode <| .add .refl
  case isFalse => exact fun _ => .refl

theorem hintsGrow_foldl_deliverHint (ts : List NodeId) :
    HintsGrow s (ts.foldl (deliverHint · cfg c g · k v) s) := by
  induction ts generalizing s
  case nil         => exact fun _ => .refl
  case cons t _ hi => exact fun r => (hintsGrow_deliverHint r).trans (hi r)

theorem hintsGrow_sendWrites (i : Nat) (op : Op α) (w : Write α) (ts : List NodeId) :
    HintsGrow s (s.sendWrites cfg i op w ts) := by
  intro r
  simp only [sendWrites, node_send, node_modifyOp]
  split
  case h_1 => exact .refl
  case h_2 => exact hintsGrow_foldl_deliverHint ts r

theorem hintsGrow_handle (s : State α) (message : Message α) :
    HintsGrow s (s.handle message) ∨ ∃ g t k, message = .flushed g t k ∧
      s.handle message = s.modifyNode g (·.clearHints t k) := by
  match message with
  | .flushed g t k => exact .inr ⟨g, t, k, rfl, rfl⟩
  | .hint _ _ (some _) _ => exact .inl <| hintsGrow_modifyNode <| .add .refl
  | .put _ dest (some key) v | .flush _ dest _ (some key) v =>
    have h : HintsGrow s (s.modifyNode dest (·.putLocal key v)) := hintsGrow_modifyNode .refl
    exact .inl h
  | .delete _ dest (some key) =>
    have h : HintsGrow s (s.modifyNode dest (·.deleteLocal key |>.2)) := hintsGrow_modifyNode .refl
    exact .inl h
  | .put _ _ none _ | .delete _ _ none | .hint _ _ none _ | .flush _ _ _ none _ =>
    exact .inl fun _ => .refl

open State in
theorem hints_next (h : s.next cfg l = some s') : HintsGrow s s' ∨
    ∃ g t k, s.delivered l = some (.flushed g t k) ∧
      ∀ r, (s'.node r).hintStore =
        if r = g then (s.node g).hintStore.clearKey t k else (s.node r).hintStore := by
  cases nextStep h
  case idle | invokeDelete | lose | flush => exact .inl fun _ => .refl
  case putWrite => exact .inl <| hintsGrow_sendWrites _ _ _ _
  case hint     => exact .inl <| hintsGrow_deliverHint (s := s.modifyOp _ _)
  case deliver m message again hm =>
    let rest := if again then s.net else s.net.eraseIdx m
    rcases hintsGrow_handle { s with net := rest } message with hg | ⟨g, t, k, he, hs⟩
    · exact .inl hg
    · refine .inr ⟨g, t, k, by rw [delivered, hm, he], fun r => ?_⟩
      rw [hs, node_modifyNode]
      split <;> rfl

end State

-- A step adds hints, or clears those of one key after they were flushed.
theorem hints_step (h : step cfg s l = some s') : State.HintsGrow s s' ∨
    ∃ g t k, s.delivered l = some (.flushed g t k) ∧
      ∀ r, (s'.node r).hintStore =
        if r = g then (s.node g).hintStore.clearKey t k else (s.node r).hintStore := by
  obtain ⟨s₁, hn, rfl⟩ := State.step_eq_some.mp h
  have hs := State.hints_next hn
  exact hs

end Grows

section Net

namespace State

def lost (s : State α) : Label α → Option (Message α)
  | .lose m => s.net[m]?
  | _       => none

theorem delivered_or_lost (h : s.taken l = some m) :
    s.delivered l = some m ∨ s.lost l = some m := by
  cases l <;> simp_all [taken, delivered, lost]

theorem mem_eraseIdx_or {ms : List (Message α)} (h : m ∈ ms) (i : Nat) :
    m ∈ ms.eraseIdx i ∨ ms[i]? = some m := by
  have ⟨j, hj⟩ := List.getElem?_of_mem h
  by_cases hi : j = i
  case pos => exact .inr <| hi ▸ hj
  case neg => exact .inl <| List.mem_eraseIdx_iff_getElem?.mpr ⟨j, hi, hj⟩

theorem mem_left_or (l : Label α) (hm : m ∈ s.net) : m ∈ s.left l ∨ s.taken l = some m := by
  cases l
  case lose i => exact mem_eraseIdx_or hm i
  case deliver i again =>
    cases again
    case true  => exact .inl hm
    case false => exact mem_eraseIdx_or hm i
  all_goals exact .inl hm

end State

theorem mem_net_step (h : step cfg s l = some s') (hm : m ∈ s.net) :
    m ∈ s'.net ∨ s.taken l = some m :=
  (State.mem_left_or l hm).imp_left ((left_prefix_step h).subset ·)

end Net

-- All sibling lists are antichains.
structure Antichains (s : State α) : Prop where
  stored : ∀ r k, Pairwise ((s.node r).getLocal k)
  hinted : ∀ g t k, Pairwise ((s.node g).hintStore.pending t k)

namespace Antichains

theorem initial : Antichains (State.initial : State α) where
  stored _ _   := .nil
  hinted _ _ _ := by simp [Node.empty]

theorem pairwise_store {vs : List (Version α)} (h : Pairwise vs) (r : NodeId)
    (k : Key) (m : Message α) : Pairwise (m.store r k vs) := by
  unfold Message.store
  split
  case h_1 | h_2 =>
    split
    case isTrue  => exact reconcile_eq_insertMax vs _ ▸ h.insertMax _
    case isFalse => exact h
  case h_3 => split <;> [exact .nil; exact h]
  case h_4 => exact h

theorem step (a : Antichains s) (h : DynamoKV.step cfg s l = some s') : Antichains s' where
  stored r k := by
    rw [getLocal_step h]
    cases s.delivered l
    case none   => exact a.stored r k
    case some m => exact pairwise_store (a.stored r k) r k m
  hinted g t k := by
    rcases hints_step h with hg | ⟨g', t', k', _, he⟩
    · exact (hg g).pairwise <| a.hinted g t k
    · rw [he]
      split
      case isFalse => exact a.hinted g t k
      case isTrue hg =>
        by_cases hk : t = t' ∧ k = k'
        case pos => simp [hk]
        case neg =>
          rw [HintStore.pending_clearKey_of_ne (not_and_or.mp hk)]
          exact a.hinted g' t k

theorem of_reachable {P : State α → Label α → Prop} (r : (cluster cfg α).Reachable P s) :
    Antichains s :=
  r.invariant (fun _ hs => hs ▸ initial) fun _ _ _ _ _ h a => a.step h

end Antichains

section Hinted

-- Somebody holds a hint for the node which covers the version, or is going to.
inductive Hinted (s : State α) (target : NodeId) (key : Key) (v : Version α) : Prop
  | held : Covers ((s.node g).hintStore.pending target key) v → Hinted s target key v
  | sent : .hint g target (some key) u ∈ s.net → v ≤ u → Hinted s target key v

theorem Hinted.of_grow (hi : Hinted s t k v) (h : State.HintsGrow s s') (hn : s.net ⊆ s'.net) :
    Hinted s' t k v := by
  cases hi
  case held g hc     => exact .held <| (h g).covers hc
  case sent hm hle   => exact .sent (hn hm) hle

namespace State

theorem hinted_deliverHint (hc : Clean k) : Hinted (s.deliverHint cfg c g t k v) t k v := by
  unfold deliverHint
  split
  case isTrue =>
    refine .held (g := c) ?_
    rw [node_modifyNode, if_pos rfl, Node.hintStore_addHint, HintStore.pending_add_self]
    exact reconcile_covers_self _ v
  case isFalse =>
    refine .sent (g := g) ?_ le_rfl
    rw [hc.internalHints]
    exact List.mem_append_right _ <| List.mem_singleton_self _

theorem hinted_foldl_deliverHint {ts : List NodeId} (hc : Clean k) (ht : t ∈ ts) :
    Hinted (ts.foldl (deliverHint · cfg c g · k v) s) t k v := by
  induction ts generalizing s
  case nil         => contradiction
  case cons t' ts hi =>
    cases ht
    case tail ht => exact hi ht
    case head    =>
      exact (hinted_deliverHint hc).of_grow (hintsGrow_foldl_deliverHint ts)
        (prefix_foldl_deliverHint ts).subset

theorem hinted_sendWrites {op : Op α} {w : Write α} (hc : Clean op.key)
    (hh : w.hintHolder = some holder) (ht : t ∈ ts) :
    Hinted (s.sendWrites cfg i op w ts) t op.key w.version := by
  have hi : Hinted (ts.foldl (deliverHint · cfg op.coord holder · op.key w.version) s) t op.key
      w.version := hinted_foldl_deliverHint hc ht
  refine hi.of_grow (fun r => ?_) ?_
  case refine_1 =>
    simp only [sendWrites, hh, node_send, node_modifyOp]
    exact .refl
  case refine_2 =>
    simp only [sendWrites, hh]
    exact List.subset_append_left ..

end State

theorem hinted_of_delivered (h : step cfg s l = some s')
    (hd : s.delivered l = some (.hint g t (some k) v)) :
    Covers ((s'.node g).hintStore.pending t k) v := by
  obtain ⟨s₁, hn, rfl⟩ := State.step_eq_some.mp h
  cases l <;> simp only [State.delivered, reduceCtorEq] at hd
  obtain ⟨m, hm, rfl⟩ := State.deliver_eq_some.mp hn
  cases Option.some.inj <| hm.symm.trans hd
  rw [State.node_tick, State.handle, State.node_modifyNode, if_pos rfl, Node.hintStore_addHint,
    HintStore.pending_add_self]
  exact reconcile_covers_self _ v

-- Hints remain until they are flushed, unless they get lost on their way.
theorem Hinted.step (hi : Hinted s t k v) (h : DynamoKV.step cfg s l = some s')
    (hl : ∀ m ∈ s.lost l, ∀ g u, m ≠ .hint g t (some k) u) : Hinted s' t k v ∨
      ∃ g, s.delivered l = some (.flushed g t k) ∧ Covers ((s.node g).hintStore.pending t k) v := by
  cases hi
  case held g hc =>
    rcases hints_step h with hg | ⟨g', t', k', hd, he⟩
    · exact .inl <| .held <| (hg g).covers hc
    · by_cases hk : g = g' ∧ t = t' ∧ k = k'
      case pos =>
        obtain ⟨rfl, rfl, rfl⟩ := hk
        exact .inr ⟨g, hd, hc⟩
      case neg =>
        refine .inl <| .held (g := g) ?_
        rw [he]
        split
        case isFalse   => exact hc
        case isTrue hg =>
          subst hg
          rwa [HintStore.pending_clearKey_of_ne]
          exact not_and_or.mp fun hk' => hk ⟨rfl, hk'⟩
  case sent u g hm hle =>
    rcases mem_net_step h hm with hm | ht
    · exact .inl <| .sent hm hle
    · rcases State.delivered_or_lost ht with hd | hlost
      · exact .inl <| .held <| (hinted_of_delivered h hd).mono hle
      · exact absurd rfl <| hl _ hlost g u

end Hinted
end DynamoKV
