import DynamoKV.Execution.Theorems.Overlap
import DynamoKV.Execution.Threads

-- Whether reads see the put of a key which was issued last, when earlier versions may still be
-- hidden somewhere.
namespace DynamoKV

open Antichain

variable {α : Type} {cfg : Config} {s s' : State α} {l : Label α} {k : Key}

section Around

def Message.carried (k : Key) : Message α → Option (Version α)
  | .put _ _ (some key) v | .hint _ _ (some key) v | .flush _ _ _ (some key) v =>
    if key = k then some v else none
  | _ => none

theorem Message.carried_eq_some {m : Message α} : m.carried k = some v ↔ m.Carries k v := by
  unfold carried Carries
  split <;> simp

namespace State

def storedVersions (s : State α) (k : Key) : List (Version α) :=
  s.nodes.entries.flatMap (·.2.getLocal k)

def hintedVersions (s : State α) (k : Key) : List (Version α) :=
  s.nodes.entries.flatMap fun node => node.2.hintStore.storage.data.entries.flatMap fun blob =>
    ((blob.2.lookup k).getD []).map Version.fromDict

def sentVersions (s : State α) (k : Key) : List (Version α) :=
  s.net.filterMap (·.carried k)

def activeVersions (s : State α) (k : Key) : List (Version α) :=
  s.ops.filterMap fun op => (op.write.filter fun w => op.key = k ∧ w.Active).map (·.version)

-- All versions of the key which are stored somewhere or which can still be.
def versionsAround (s : State α) (k : Key) : List (Version α) :=
  s.storedVersions k ++ s.hintedVersions k ++ s.sentVersions k ++ s.activeVersions k

theorem exists_mem_entries_iff {β : Type*} {m : AList fun _ : String => β} {d : β} {P : β → Prop}
    (hd : ¬P d) : (∃ e ∈ m.entries, P e.2) ↔ ∃ a, P ((m.lookup a).getD d) := by
  constructor
  case mp =>
    intro ⟨⟨a, b⟩, he, hp⟩
    exact ⟨a, by rwa [AList.mem_lookup_iff.mpr he]⟩
  case mpr =>
    intro ⟨a, hp⟩
    cases h : m.lookup a
    case none =>
      rw [h] at hp
      exact absurd hp hd
    case some b =>
      rw [h] at hp
      exact ⟨⟨a, b⟩, AList.mem_lookup_iff.mp h, hp⟩

theorem mem_storedVersions : v ∈ s.storedVersions k ↔ ∃ r, v ∈ (s.node r).getLocal k := by
  rw [storedVersions, List.mem_flatMap]
  exact exists_mem_entries_iff (d := .empty) (P := fun node : Node α => v ∈ node.getLocal k)
    (by simp)

theorem mem_hintedVersions : v ∈ s.hintedVersions k ↔
    ∃ h t, v ∈ (s.node h).hintStore.pending t k := by
  have blobs : ∀ node : Node α, (∃ e ∈ node.hintStore.storage.data.entries,
      v ∈ ((e.2.lookup k).getD []).map Version.fromDict) ↔
      ∃ t, v ∈ node.hintStore.pending t k := fun node =>
    exists_mem_entries_iff (m := node.hintStore.storage.data) (d := (∅ : HintBlob α))
      (P := fun b => v ∈ ((b.lookup k).getD []).map Version.fromDict) (by simp)
  simp only [hintedVersions, List.mem_flatMap, blobs, node]
  exact exists_mem_entries_iff (m := s.nodes) (d := Node.empty)
    (P := fun node : Node α => ∃ t, v ∈ node.hintStore.pending t k) (by simp [Node.empty])

theorem mem_sentVersions : v ∈ s.sentVersions k ↔ ∃ m ∈ s.net, m.Carries k v := by
  simp [sentVersions, Message.carried_eq_some]

theorem mem_activeVersions : v ∈ s.activeVersions k ↔ ∃ (i : Nat) (op : Op α) (w : Write α),
    s.ops[i]? = some op ∧ op.key = k ∧ op.write = some w ∧ w.Active ∧ w.version = v := by
  simp only [activeVersions, List.mem_filterMap, Option.map_eq_some_iff, Option.filter_eq_some_iff,
    decide_eq_true_eq]
  constructor
  case mp =>
    intro ⟨op, ho, w, ⟨hw, hk, ha⟩, hv⟩
    have ⟨i, ho⟩ := List.getElem?_of_mem ho
    exact ⟨i, op, w, ho, hk, hw, ha, hv⟩
  case mpr =>
    intro ⟨i, op, w, ho, hk, hw, ha, hv⟩
    exact ⟨op, List.mem_of_getElem? ho, w, ⟨hw, hk, ha⟩, hv⟩

theorem mem_versionsAround : v ∈ s.versionsAround k ↔ Around s k v := by
  simp only [versionsAround, List.mem_append, mem_storedVersions, mem_hintedVersions,
    mem_sentVersions, mem_activeVersions]
  constructor
  case mp =>
    rintro (((⟨r, h⟩ | ⟨h, t, hv⟩) | ⟨m, hm, hc⟩) | ⟨i, op, w, ho, hk, hw, ha, hv⟩)
    · exact .stored h
    · exact .hinted hv
    · exact .sent hm hc
    · exact .active ho hk hw ha hv
  case mpr =>
    intro a
    cases a
    case stored r h                => exact .inl <| .inl <| .inl ⟨r, h⟩
    case hinted h t hv             => exact .inl <| .inl <| .inr ⟨h, t, hv⟩
    case sent m hm hc              => exact .inl <| .inr ⟨m, hm, hc⟩
    case active i op w ho hk hw ha hv => exact .inr ⟨i, op, w, ho, hk, hw, ha, hv⟩

theorem hintedVersions_eq_nil :
    s.hintedVersions k = [] ↔ ∀ g t, (s.node g).hintStore.pending t k = [] := by
  simp only [List.eq_nil_iff_forall_not_mem, mem_hintedVersions, not_exists]
  exact forall_comm.trans <| forall_congr' fun _ => forall_comm

theorem sentVersions_eq_nil : s.sentVersions k = [] ↔ ∀ m ∈ s.net, ∀ v, ¬m.Carries k v := by
  simp only [List.eq_nil_iff_forall_not_mem, mem_sentVersions, not_exists, not_and]
  exact forall_comm.trans <| forall_congr' fun _ => forall_comm

theorem not_coming_iff : (∀ v, ¬Coming s k v) ↔
    s.hintedVersions k = [] ∧ s.sentVersions k = [] ∧ s.activeVersions k = [] := by
  simp only [List.eq_nil_iff_forall_not_mem, mem_hintedVersions, mem_sentVersions,
    mem_activeVersions]
  constructor
  case mp =>
    intro h
    refine ⟨fun v ⟨_, _, hv⟩ => h v <| .hinted hv, fun v ⟨_, hm, hc⟩ => h v <| .sent hm hc, ?_⟩
    exact fun v ⟨_, _, _, ho, hk, hw, ha, hv⟩ => h v <| .active ho hk hw ha hv
  case mpr =>
    intro ⟨hh, hs, ha⟩ v c
    cases c
    case hinted hv             => exact hh v ⟨_, _, hv⟩
    case sent hm hc            => exact hs v ⟨_, hm, hc⟩
    case active ho hk hw hb hv => exact ha v ⟨_, _, _, ho, hk, hw, hb, hv⟩

end State
end Around

section Conditions

-- The version covers all that the put has read, and has a larger entry of the put's coordinator.
structure Shadows (cfg : Config) (op : Op α) (v : Version α) : Prop where
  covers : ∀ vs ∈ op.replies cfg, ∀ x ∈ vs, x ≤ v
  pos    : 0 < v.clock.get op.coord
  lt     : ∀ vs ∈ op.replies cfg, ∀ x ∈ vs, x.clock.get op.coord < v.clock.get op.coord

instance {op : Op α} {v : Version α} : Decidable (Shadows cfg op v) :=
  decidable_of_iff ((∀ vs ∈ op.replies cfg, ∀ x ∈ vs, x ≤ v) ∧ 0 < v.clock.get op.coord ∧
      ∀ vs ∈ op.replies cfg, ∀ x ∈ vs, x.clock.get op.coord < v.clock.get op.coord)
    ⟨fun ⟨h₁, h₂, h₃⟩ => ⟨h₁, h₂, h₃⟩, fun ⟨h₁, h₂, h₃⟩ => ⟨h₁, h₂, h₃⟩⟩

-- When a put makes its version, nothing which is still around shadows it.
def NotShadowed (cfg : Config) (k : Key) (s : State α) (l : Label α) : Prop :=
  ∀ i ∈ l.putWrites, ∀ op ∈ s.ops[i]?, op.key = k → op.read.Reached (cfg.readThreshold op.prefs) →
    ∀ v, Around s k v → ¬Shadows cfg op v

instance : Decidable (NotShadowed cfg k s l) :=
  decidable_of_iff (∀ i ∈ l.putWrites, ∀ op ∈ s.ops[i]?, op.key = k →
      op.read.Reached (cfg.readThreshold op.prefs) → ∀ v ∈ s.versionsAround k, ¬Shadows cfg op v)
    (by simp only [NotShadowed, State.mem_versionsAround])

def Message.erasure : Message α → Option (Nat × NodeId × Key)
  | .delete i dest (some key) => some (i, dest, key)
  | _                         => none

-- The replicas which have executed the put.
def Op.executed (op : Op α) : List NodeId :=
  op.write.elim [] fun w => w.call.handled.map Prod.fst

-- No delete reaches a replica which has executed a put that was issued after the delete.
def NoLateErase (k : Key) (s : State α) (l : Label α) : Prop :=
  ∀ m ∈ s.delivered l, ∀ e ∈ m.erasure, e.2.2 = k → ∀ d ∈ s.deletes[e.1]?,
    ∀ op ∈ s.ops, op.key = k → d.started ≤ op.started → e.2.1 ∉ op.executed

instance : Decidable (NoLateErase k s l) :=
  inferInstanceAs (Decidable (∀ m ∈ s.delivered l, _))

theorem Shadows.of_le {op : Op α} {value : α}
    (h : op.newVersion (mergeReplies <| op.replies cfg) value ≤ v) : Shadows cfg op v := by
  have hm : ∀ vs ∈ op.replies cfg, ∀ x ∈ vs,
      x.clock ≤ VectorClock.merge ((mergeReplies <| op.replies cfg).map (·.clock)) := by
    intro vs hvs x hx
    have ⟨y, hy, hxy⟩ := mergeReplies_covers hvs (.of_mem hx)
    exact le_trans (α := VectorClock) hxy <| VectorClock.le_merge (List.mem_map_of_mem hy)
  have hc := h op.coord
  have hn := VectorClock.merge_get_nonneg ((mergeReplies <| op.replies cfg).map (·.clock)) op.coord
  simp only [Op.newVersion, VectorClock.get_incremented_self] at hc
  refine ⟨fun vs hvs x hx => ?_, by omega, fun vs hvs x hx => ?_⟩
  · exact le_trans (α := VectorClock) (hm vs hvs x hx) <|
      le_trans (VectorClock.le_incremented _ op.coord) h
  · have := hm vs hvs x hx op.coord
    omega

theorem NotShadowed.not_le (hs : NotShadowed cfg k s l) {op : Op α} {w : Write α}
    (ho : s.ops[i]? = some op) (hk : op.key = k) (hm : Mints cfg s l i op w) (ha : Around s k v) :
    ¬w.version ≤ v := by
  intro hle
  have ⟨down, hl⟩ := hm.label
  have ⟨hr, hmerged⟩ := mergedRead_eq_ok hm.merged
  have ⟨value, _, hw⟩ := hm.put
  rw [hw, hmerged] at hle
  exact hs i (by rw [hl]; rfl) op ho hk hr v ha <| .of_le hle

end Conditions

section Invariant

-- No put or delete of the key is issued after the put, at least not before the given time.
structure Put.LastUntil (p : Put s k) (time : Nat) : Prop where
  puts    : ∀ {j : Nat} {op : Op α}, s.ops[j]? = some op → op.key = k → op.request.isPut →
    p.index < j → time ≤ op.started
  deletes : ∀ d ∈ s.deletes, d.key = k → p.op.started < d.started → time ≤ d.started

theorem Put.LastUntil.mono {p : Put s k} (hl : p.LastUntil t) (ht : t' ≤ t) : p.LastUntil t' where
  puts ho hk hp hi  := ht.trans <| hl.puts ho hk hp hi
  deletes d hd hk h := ht.trans <| hl.deletes d hd hk h

theorem Put.LastUntil.of_drop {p : Put s k}
    (hp : ∀ op ∈ s.ops.drop (p.index + 1), ¬op.request.isPut)
    (hd : ∀ d ∈ s.deletes, p.op.started < d.started → t ≤ d.started) : p.LastUntil t where
  puts {j op} ho _ hput hj := by
    refine absurd hput <| hp op <| List.mem_of_getElem? (i := j - (p.index + 1)) ?_
    rw [List.getElem?_drop, ← ho]
    congr 1
    omega
  deletes d hm _ hlt := hd d hm hlt

theorem Put.LastUntil.of_continues (h : step cfg s l = some s') {p : Put s k} {p' : Put s' k}
    (e : p.Continues cfg l p') (hl : p'.LastUntil t) : p.LastUntil t where
  puts ho hk hp hi := by
    have ⟨op', ho', eo⟩ := exists_opStep h ho
    rw [← eo.started]
    exact hl.puts ho' (eo.key ▸ hk) (eo.request ▸ hp) (e.index ▸ hi)
  deletes d hd hk ht := by
    have ⟨i, hi⟩ := List.getElem?_of_mem hd
    have ⟨d', hd', ed⟩ := exists_deleteStep h hi
    rw [← ed.started]
    refine hl.deletes d' (List.mem_of_getElem? hd') (ed.key ▸ hk) ?_
    rw [ed.started, e.op.started]
    exact ht

-- Once a put is the last one, nothing around is above its version, and the replicas and replies
-- which matter have it.
structure LastPut (cfg : Config) (s : State α) (p : Put s k) : Prop where
  around  : ∀ v, Around s k v → p.version ≤ v → v = p.version
  stored  : ∀ r, (r, ()) ∈ p.write.call.handled → p.version ∈ (s.node r).getLocal k
  replies : ∀ {i : Nat} {g : Op α}, s.ops[i]? = some g → g.key = k → p.op.AckedBefore g →
    ∀ x ∈ g.read.handled, (∀ v ∈ x.2, p.version ≤ v → v = p.version) ∧
      (x.1 ∈ p.acks cfg → p.version ∈ x.2)

-- A put which makes its version in a step has not returned before it.
theorem not_returnedBy_of_mints {op op' : Op α} {w : Write α} (hm : Mints cfg s l i op w)
    (e : OpStep cfg s l i op op') (ht : t ≤ s.time) : ¬op'.ReturnedBy t := by
  intro ⟨o, ho, hlt⟩
  have hn : op.outcome = none := by simpa using hm.finished.left
  rcases e.outcome_of ho with ho | ⟨_, hs, _⟩
  · simp [hn] at ho
  · omega

abbrev SerialPuts (k : Key) (s : State α) : Prop :=
  Ordered (fun a b => a.2.1 = k ∧ b.2.1 = k ∧ a.2.2.isPut ∧ b.2.2.isPut) (fun _ => True) s

-- Only the last put can make its version.
theorem Put.LastUntil.eq_of_minted {p p' : Put s' k} (hl : p.LastUntil s'.time)
    (h : step cfg s l = some s') (d' : Sound cfg s') (ord' : SerialPuts k s') {op : Op α}
    (hm : Mints cfg s l p'.index op p'.write) (e : OpStep cfg s l p'.index op p'.op) : p' = p := by
  rcases Nat.lt_trichotomy p'.index p.index with hi | hi | hi
  · have hr := ord'.before hi p'.mem p.mem ⟨p'.key, p.key, p'.isPut d', p.isPut d'⟩ |>.right
    have hlt := (d'.valid p.mem).started
    rw [time_step h] at hlt
    exact absurd hr <| not_returnedBy_of_mints hm e (by omega)
  · exact Put.ext hi
  · have hle := hl.puts p'.mem p'.key (p'.isPut d') hi
    have hlt := (d'.valid p'.mem).started
    omega

theorem LastPut.step (q : cfg.Quorum) (d : Sound cfg s) (d' : Sound cfg s') (ord' : SerialPuts k s')
    (h : DynamoKV.step cfg s l = some s') (hs : NotShadowed cfg k s l)
    (he : ∀ p : Put s k, p.LastUntil s.time → ∀ r, (r, ()) ∈ p.write.call.handled →
      ∀ m ∈ s.delivered l, ¬m.Erases r k)
    (hi : ∀ p : Put s k, p.LastUntil s.time → LastPut cfg s p) {p' : Put s' k}
    (hl : p'.LastUntil s'.time) : LastPut cfg s' p' := by
  have lastUntil : ∀ {p : Put s k}, p.Continues cfg l p' → p.LastUntil s.time := fun e =>
    (hl.of_continues h e).mono <| time_step h ▸ Nat.le_succ _
  have around : ∀ v, Around s' k v → p'.version ≤ v → v = p'.version := by
    intro v a hle
    rcases a.of_step d.clean d'.clean h with a | ⟨i, op, w, hm, hk, hv⟩
    · rcases p'.continues_or_minted h with ⟨p, e⟩ | ⟨op, ho, hk, hm, _⟩
      · rw [e.version] at hle ⊢
        exact (hi p (lastUntil e)).around v a hle
      · exact absurd hle <| hs.not_le ho hk hm a
    · obtain ⟨op', ho', hk', hw'⟩ := hm.after
      obtain ⟨op'', ho'', e⟩ := exists_opStep h hm.before
      obtain rfl := Option.some.inj (ho'.symm.trans ho'')
      let x : Put s' k := ⟨i, op', w, ho', hk'.trans hk, hw'⟩
      have he : x = p' := hl.eq_of_minted h d' ord' hm.mints e
      rw [← he, ← hv, Put.version]
  have stored : ∀ {r}, Covers ((s'.node r).getLocal k) p'.version →
      p'.version ∈ (s'.node r).getLocal k := by
    rintro r ⟨v, hv, hle⟩
    exact around v (.stored hv) hle ▸ hv
  refine ⟨around, fun r hr => stored ?_, fun {i g'} hg' hk ha x hx => ?_⟩
  · rcases p'.handled_of_step d.clean h hr with ⟨p, e, hr⟩ | hd
    · have hc := Covers.of_mem <| (hi p (lastUntil e)).stored r hr
      exact e.version ▸ covers_step h (he p (lastUntil e) r hr) hc
    · exact covers_of_delivered h hd
  · rcases opStep_or_started h hg' with ⟨g, hg, eg⟩ | hst
    · obtain ⟨p, e, ha⟩ := p'.ackedBefore_of_step d h hg eg ha
      have hp := hi p (lastUntil e)
      rw [eg.key] at hk
      rw [e.version, e.acks q d ha.left]
      rcases eg.answer_of hx with hx | ⟨_, _, hx⟩
      · exact hp.replies hg hk ha x hx
      · rw [hx, (d.clean.ops hg).answer, hk]
        exact ⟨fun v hv => hp.around v (.stored hv),
          fun hr => hp.stored _ <| Put.handled_of_mem_acks hr⟩
    · obtain ⟨_, _, hr⟩ := hst.read
      simp [hr, QuorumCall.submit] at hx

theorem LastPut.mem_mergeReplies {p : Put s k} (hp : LastPut cfg s p) (q : cfg.Quorum)
    (d : Sound cfg s) {i : Nat} {g : Op α} (hg : s.ops[i]? = some g) (hk : g.key = k)
    (ha : p.op.AckedBefore g) (hr : g.read.Reached (cfg.readThreshold g.prefs)) :
    p.version ∈ mergeReplies (g.replies cfg) := by
  have ⟨x, hx, hxr⟩ := exists_overlap q d hg hk ha.left hr
  have hv := hp.replies hg hk ha x (QuorumCall.handled_of_mem_successes hx) |>.right hxr
  have ⟨v, hm, hle⟩ := mergeReplies_covers (List.mem_map_of_mem hx) (.of_mem hv)
  have ⟨y, hy, hyv⟩ := exists_handled_of_mem_mergeReplies hm
  exact (hp.replies hg hk ha y hy).left v hyv hle ▸ hm

-- All gets return the version of the put which was the last one, when they were answered.
def ReadsLastPut (k : Key) (s : State α) : Prop :=
  ∀ (p : Put s k) (i : Nat) (g : Op α) (o : Outcome α (Version α)), s.ops[i]? = some g →
    g.key = k → g.request = .get → g.outcome = some o → o.response ≠ .error (.readQuorum k) →
    p.op.AckedBefore g → p.LastUntil o.time → p.version ∈ o.response.versions

-- The get at `j` misses the value of the last put, which is the one at `i`.
def MissesPut (k : Key) (s : State α) (i j : Nat) : Prop :=
  ∃ op ∈ s.ops[i]?, ∃ w ∈ op.write, ∃ g ∈ s.ops[j]?, ∃ o ∈ g.outcome,
    (op.key = k ∧ g.key = k ∧ ¬g.request.isPut ∧ o.response.statusCode ≠ 503) ∧
    (op.Acked ∧ ∃ o' ∈ op.outcome, o'.time < g.started) ∧
    (∀ op' ∈ s.ops.drop (i + 1), ¬op'.request.isPut) ∧ (∀ d ∈ s.deletes, d.started ≤ op.started) ∧
    ∀ v ∈ o.response.versions, v.value ≠ w.version.value

instance [DecidableEq α] : Decidable (MissesPut k s i j) :=
  inferInstanceAs (Decidable (∃ op ∈ s.ops[i]?, _))

theorem MissesPut.not_readsLastPut (h : MissesPut k s i j) : ¬ReadsLastPut k s := by
  intro hr
  have ⟨op, hop, w, hw, g, hg, o, ho, ⟨hk, hgk, hget, hs⟩, ⟨ha, o', ho', ht⟩, hp, hd, hv⟩ := h
  let p : Put s k := ⟨i, op, w, hop, hk, hw⟩
  have hl : p.LastUntil o.time := .of_drop hp fun d hm hlt => absurd (hd d hm) hlt.not_ge
  have hne : o.response ≠ .error (.readQuorum k) := fun he => hs <| by rw [he]; rfl
  have hm := hr p j g o hg hgk (Request.eq_get hget) ho hne ⟨ha, o', ho', ht⟩ hl
  exact hv _ hm rfl

theorem ReadsLastPut.step (q : cfg.Quorum) (d : Sound cfg s) (h : DynamoKV.step cfg s l = some s')
    (hp : ∀ p : Put s k, p.LastUntil s.time → LastPut cfg s p) (hr : ReadsLastPut k s) :
    ReadsLastPut k s' := by
  intro p' i g' o hg' hk hget ho hne ha hl
  rcases opStep_or_started h hg' with ⟨g, hg, eg⟩ | hst
  · obtain ⟨p, e, ha⟩ := p'.ackedBefore_of_step d h hg eg ha
    have hl := hl.of_continues h e
    rw [eg.key] at hk
    rw [eg.request] at hget
    rw [e.version]
    rcases eg.outcome_of ho with ho | ⟨_, ht, hc⟩
    · exact hr p i g o hg hk hget ho hne ha hl
    · have hnp : ¬g.request.isPut := by simp [hget, Request.isPut]
      obtain ⟨hreach, hresp⟩ := (Op.Answered.of_concludes hc (d.valid hg).wrote).get hnp
        |>.resolve_left fun h => hne (hk ▸ h.left)
      rw [hresp, versions_getResponse]
      exact (hp p (ht ▸ hl)).mem_mergeReplies q d hg hk ha hreach
  · simp [hst.outcome] at ho

variable {P : State α → Label α → Prop}

theorem LastPut.of_reachable (q : cfg.Quorum) (r : (cluster cfg α).Reachable P s)
    (hc : ∀ s l, P s l → l.CleanKey) (hw : ∀ s l, P s l → SerialWrites k s l)
    (hs : ∀ s l, P s l → NotShadowed cfg k s l)
    (he : ∀ {s l}, (cluster cfg α).Reachable P s → P s l → ∀ p : Put s k, p.LastUntil s.time →
      ∀ r, (r, ()) ∈ p.write.call.handled → ∀ m ∈ s.delivered l, ¬m.Erases r k) :
    (∀ p : Put s k, p.LastUntil s.time → LastPut cfg s p) ∧ ReadsLastPut k s := by
  refine r.invariant (I := fun s => (∀ p : Put s k, p.LastUntil s.time → LastPut cfg s p) ∧
    ReadsLastPut k s) (fun s hi => ?init) fun s l s' r hp h ⟨hl, hr⟩ => ?step
  case init =>
    subst hi
    have none : Put (State.initial : State α) k → False := fun p => by
      simpa [State.initial] using p.mem
    exact ⟨fun p => (none p).elim, fun p => (none p).elim⟩
  case step =>
    have r' := r.step hp h
    have d  := Sound.of_reachable q r hc
    have d' := Sound.of_reachable q r' hc
    refine ⟨fun p hlp => ?_, hr.step q d h hl⟩
    exact .step q d d' (SerialWrites.ordered q r' hc hw) h (hs _ _ hp) (he r hp) hl hlp

end Invariant

section Failures

theorem ReadsLastPut.of_reachable (q : cfg.Quorum) (r : (cluster cfg α).Reachable
      (fun s l => (SerialWrites k s l ∧ NoDelete k l) ∧ l.CleanKey ∧ NotShadowed cfg k s l) s) :
    ReadsLastPut k s := by
  refine LastPut.of_reachable q r (fun _ _ h => h.right.left) (fun _ _ h => h.left.left)
    (fun _ _ h => h.right.right) (fun r _ _ _ _ _ => ?_) |>.right
  have d  := Sound.of_reachable q r fun _ _ h => h.right.left
  have kp := Kept.of_reachable (k := k) q r (fun _ _ h => h.right.left) fun _ _ h => h.left.right
  exact kp.not_erases d

-- Failed puts displace no acknowledged put as long as no put is shadowed when it makes its version.
theorem readsLastPut_of_notShadowed {s : Threads.State α} (q : cfg.Quorum)
    (r : (Threads.system cfg builds).Reachable (Threads.On fun s l =>
      (SerialWrites k s l ∧ NoDelete k l) ∧ l.CleanKey ∧ NotShadowed cfg k s l) s) :
    ReadsLastPut k s.cluster :=
  .of_reachable q (Threads.atomic_of_reachable r).left

-- The coordinator "d" is not preferred. Its first put only reaches "c" and fails, its second put
-- reads from "a" and from the given replica, and is acknowledged by "a" and "b".
def failThenPut (replica : NodeId) : List (Label Nat) := [
  .invoke "d" "k" (.put 1), .read 0 "a", .read 0 "b", .readDone 0 "a" true, .readDone 0 "b" true,
  .putWrite 0 [], .writeDone 0 "a" false, .writeDone 0 "b" false, .lose 0, .lose 0,
  .deliver 0 false, .writeDone 0 "c" true, .putReturn 0,
  .invoke "d" "k" (.put 2), .read 1 "a", .read 1 replica, .readDone 1 "a" true,
  .readDone 1 replica true, .putWrite 1 [], .deliver 0 false, .deliver 0 false,
  .writeDone 1 "a" true, .writeDone 1 "b" true, .putReturn 1,
  .invoke "d" "k" .get, .read 2 "c", .read 2 "a", .readDone 2 "c" true, .readDone 2 "a" true,
  .getReturn 2]

abbrev afterFailThenPut (replica : NodeId) (P : State Nat → Label Nat → Prop)
    [∀ s l, Decidable (P s l)] : State Nat :=
  (cluster (.ofNodes ["a", "b", "c", "d"] 3 2 2) Nat).after P .initial (failThenPut replica)

set_option maxRecDepth 100000 in
theorem readsLastPut_of_notShadowed_four : ∃ s : Threads.State Nat,
    (∃ g ∈ s.cluster.ops[2]?, ∃ o ∈ g.outcome, o.response.versions.map (·.value) = [2]) ∧
      ReadsLastPut "k" s.cluster := by
  let P := fun s (l : Label Nat) => (SerialWrites "k" s l ∧ NoDelete "k" l) ∧ l.CleanKey ∧
    NotShadowed (.ofNodes ["a", "b", "c", "d"] 3 2 2) "k" s l
  obtain ⟨s, r, hs⟩ := Threads.exists_of_reachable (P := P) (c := afterFailThenPut "c" P)
    (.after rfl _)
  refine ⟨s, ?_, readsLastPut_of_notShadowed (by decide) r⟩
  rw [hs]
  decide

-- The second put does not see what the first one has left at "c", and makes the same clock.
set_option maxRecDepth 100000 in
theorem not_readsLastPut : ¬∀ (cfg : Config) (k : Key) (s : State Nat), cfg.Quorum →
    (cluster cfg Nat).Reachable (fun s l => Sequential k s l ∧ NoDelete k l) s →
      ReadsLastPut k s := by
  intro h
  let s := afterFailThenPut "b" fun s l => Sequential "k" s l ∧ NoDelete "k" l
  have hm : MissesPut "k" s 1 2 := by decide
  exact hm.not_readsLastPut <| h _ "k" s (by decide) (.after rfl _)

end Failures

section Deletes

theorem delete_started_lt {P : State α → Label α → Prop} (r : (cluster cfg α).Reachable P s) :
    ∀ d ∈ s.deletes, d.started < s.time := by
  refine r.invariant (I := fun s => ∀ d ∈ s.deletes, d.started < s.time) (fun s hi => ?init)
    fun s l s' _ _ h hlt => ?step
  case init =>
    subst hi
    simp [State.initial]
  case step =>
    intro d' hd'
    obtain ⟨i, hi⟩ := List.getElem?_of_mem hd'
    rw [time_step h]
    rcases deleteStep_or_started h hi with ⟨d, hd, e⟩ | hs
    · exact e.started ▸ (hlt d <| List.mem_of_getElem? hd).trans (Nat.lt_succ_self _)
    · exact hs.time ▸ Nat.lt_succ_self _

-- The last put is read by all later gets, and no version on a replica dominates it.
structure LastPutVisible (k : Key) (s : State α) : Prop where
  gets   : ReadsLastPut k s
  clocks : ∀ (p : Put s k) (r : NodeId) (v : Version α), p.LastUntil s.time →
    v ∈ (s.node r).getLocal k → v.clock.dominatesOrEqual p.version.clock → v = p.version

theorem LastPutVisible.of_reachable (q : cfg.Quorum) (r : (cluster cfg α).Reachable
      (fun s l => SerialWrites k s l ∧ l.CleanKey ∧ NotShadowed cfg k s l ∧ NoLateErase k s l) s) :
    LastPutVisible k s := by
  have ⟨hl, hr⟩ := LastPut.of_reachable (k := k) q r (fun _ _ h => h.right.left)
    (fun _ _ h => h.left) (fun _ _ h => h.right.right.left) ?_
  · exact ⟨hr, fun p _ v hlast hv hd =>
      (hl p hlast).around v (.stored hv) <| VectorClock.dominatesOrEqual_iff.mp hd⟩
  · rintro s l r ⟨_, _, _, hne⟩ p hlast n hn _ hm ⟨i, rfl⟩
    have d := Sound.of_reachable q r fun _ _ h => h.right.left
    have ⟨del, hd, hk⟩ := d.clean.delete <| mem_net_of_delivered hm
    have hdel := List.mem_of_getElem? hd
    have hlt := delete_started_lt r del hdel
    have hle : del.started ≤ p.op.started := by
      by_contra hgt
      have := hlast.deletes del hdel (Option.some.inj hk).symm (by omega)
      omega
    refine hne _ hm (i, n, k) rfl rfl del hd p.op (List.mem_of_getElem? p.mem) p.key hle ?_
    rw [Op.executed, p.wrote]
    exact List.mem_map_of_mem hn

theorem lastPutVisible_of_notShadowed {s : Threads.State α} (q : cfg.Quorum)
    (r : (Threads.system cfg builds).Reachable (Threads.On fun s l =>
      SerialWrites k s l ∧ l.CleanKey ∧ NotShadowed cfg k s l ∧ NoLateErase k s l) s) :
    LastPutVisible k s.cluster :=
  .of_reachable q (Threads.atomic_of_reachable r).left

-- A put which all replicas execute, a delete which "c" misses, and another put, which reads from
-- "a" and from the given replica.
def deleteThenPut (replica : NodeId) : List (Label Nat) := [
  .invoke "a" "k" (.put 1), .read 0 "a", .read 0 "b", .readDone 0 "a" true, .readDone 0 "b" true,
  .putWrite 0 [], .deliver 0 false, .deliver 0 false, .deliver 0 false, .writeDone 0 "a" true,
  .writeDone 0 "b" true, .writeDone 0 "c" true, .putReturn 0,
  .invokeDelete "a" "k", .deliver 0 false, .deliver 0 false, .deleteDone 0 "a" true,
  .deleteDone 0 "b" true, .deleteReturn 0,
  .invoke "a" "k" (.put 2), .read 1 "a", .read 1 replica, .readDone 1 "a" true,
  .readDone 1 replica true, .putWrite 1 [], .deliver 1 false, .deliver 1 false,
  .writeDone 1 "a" true, .writeDone 1 "b" true, .putReturn 1,
  .invoke "b" "k" .get, .read 2 "c", .read 2 "a", .readDone 2 "c" true, .readDone 2 "a" true,
  .getReturn 2]

abbrev afterDeleteThenPut (replica : NodeId) (P : State Nat → Label Nat → Prop)
    [∀ s l, Decidable (P s l)] : State Nat :=
  (cluster (.ofNodes ["a", "b", "c"] 3 2 2) Nat).after P .initial (deleteThenPut replica)

set_option maxRecDepth 100000 in
theorem lastPutVisible_of_notShadowed_three : ∃ s : Threads.State Nat,
    (∃ g ∈ s.cluster.ops[2]?, ∃ o ∈ g.outcome, o.response.versions.map (·.value) = [2]) ∧
      LastPutVisible "k" s.cluster := by
  let P := fun s (l : Label Nat) => SerialWrites "k" s l ∧ l.CleanKey ∧
    NotShadowed (.ofNodes ["a", "b", "c"] 3 2 2) "k" s l ∧ NoLateErase "k" s l
  obtain ⟨s, r, hs⟩ := Threads.exists_of_reachable (P := P) (c := afterDeleteThenPut "c" P)
    (.after rfl _)
  refine ⟨s, ?_, lastPutVisible_of_notShadowed (by decide) r⟩
  rw [hs]
  decide

-- The second put starts from an empty clock, while "c" still has the version of the first one.
set_option maxRecDepth 100000 in
theorem not_lastPutVisible : ¬∀ (cfg : Config) (k : Key) (s : State Nat), cfg.Quorum →
    (cluster cfg Nat).Reachable (SuccessfulWrites k) s → LastPutVisible k s := by
  intro h
  let s := afterDeleteThenPut "b" (SuccessfulWrites "k")
  have hm : MissesPut "k" s 1 2 := by decide
  exact hm.not_readsLastPut (h _ "k" s (by decide) (.after rfl _)).gets

end Deletes
end DynamoKV
