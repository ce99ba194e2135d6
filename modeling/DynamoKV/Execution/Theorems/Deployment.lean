import DynamoKV.Execution.Deployment
import DynamoKV.Execution.Theorems.Replicas
import DynamoKV.Lib.Log

-- A deployed cluster behaves as a cluster does, whenever nodes are restarted, and raises no
-- exceptions.
namespace DynamoKV.Deployment

open Persistence

variable {F K : Type} {cfg : Config} {st : Stack F K}

-- The body of a request is the JSON form of what is sent.
inductive Message.Represents (st : Stack F K) : Message F → DynamoKV.Message (Document F) → Prop
  | putLocal : Represents st (.putLocal i r k v) (.put i r (some k) v)
  | deleteLocal : Represents st (.deleteLocal i r k) (.delete i r (some k))
  | put : Represents st (.put i r k <| st.http.encode <| Wire.putRequest v) (.put i r k v)
  | delete : Represents st (.delete i r k) (.delete i r k)
  | hint : Represents st (.hint r k <| st.http.encode <| Wire.hintRequest t v) (.hint r t k v)
  | flush :
    Represents st (.flush g r k k' <| st.http.encode <| Wire.putRequest v) (.flush g r k k' v)
  | flushed : Represents st (.flushed g t k) (.flushed g t k)

section Process

variable [DecidableEq F] {n n' : Node (Document F)}
variable {f : Draw K → Process K → Option (β × Process K)}

-- Whatever files stand for a node, and whatever is drawn, a process returns the same and its files
-- stand for the new contents of the node then.
def Performs (lib : Libraries (Document F) K) (f : Draw K → Process K → Option (β × Process K))
    (n : Node (Document F)) (b : β) (n' : Node (Document F)) : Prop :=
  ∀ draw p, Persists lib p n → ∃ p', f draw p = some (b, p') ∧ Persists lib p' n'

theorem Performs.map (h : Performs lib f n b n') (g : β → γ) :
    Performs lib (fun draw p => (f draw p).bind fun x => some (g x.1, x.2)) n (g b) n' := by
  intro draw p hp
  obtain ⟨p', hf, hp'⟩ := h draw p hp
  refine ⟨p', ?_, hp'⟩
  simp only [hf, Option.bind_some]

theorem performs_pure : Performs (K := K) lib (fun _ p => some (b, p)) n b n :=
  fun _ p hp => ⟨p, rfl, hp⟩

theorem performs_restart :
    Performs (K := K) lib (fun draw p => some ((), p.restart draw)) n () n := by
  intro draw p hp
  refine ⟨p, ?_, hp⟩
  simp only [hp.restart]

variable (l : st.Lawful)
include l

theorem performs_ask (call : Call F) (get : Result F → Option β)
    (hg : get (perform n call).1 = some b) (hn : (perform n call).2 = n') :
    Performs st.lib (ask st · · call get) n b n' := by
  intro draw p hp
  obtain ⟨p', h, hp'⟩ := hp.perform l.lib l.null draw call
  refine ⟨p', ?_, hn ▸ hp'⟩
  simp [ask, h, hg]

theorem performs_putKey (key : Key) (v : Version (Document F)) : ∃ resp : HttpResponse,
    resp.statusCode = 200 ∧
    Performs st.lib (serve st · · (.putKey (some key) <| st.http.encode <| Wire.putRequest v)) n
      resp
      (n.putLocal key v) := by
  have h : Performs st.lib (ask st · · (.putLocal key v) some) n .done (n.putLocal key v) :=
    performs_ask l _ _ rfl rfl
  refine ⟨respond st 200 <| Wire.keyValueResponse key v, rfl, ?_⟩
  simpa [serve, putKeyLocal, l.http.decode_encode, Wire.readPut_putRequest] using
    h.map fun _ => respond st 200 <| Wire.keyValueResponse key v

theorem performs_getKey (key : Key) : ∃ resp : HttpResponse,
    resp.versions st = some (n.getLocal key) ∧
    Performs st.lib (serve st · · (.getKey (some key))) n resp n := by
  have h : Performs st.lib (ask st · · (.getLocal key) versions?) n (n.getLocal key) n :=
    performs_ask l _ _ rfl rfl
  refine ⟨_, ?_, h.map fun versions => if versions.isEmpty then notFound st key
    else respond st 200 <| Wire.versionsResponse key versions⟩
  split
  case isTrue h  => simp [HttpResponse.versions, notFound, respond, List.isEmpty_iff.mp h]
  case isFalse h =>
    simp [HttpResponse.versions, respond, l.http.decode_encode, Wire.readVersions_versionsResponse]

theorem performs_deleteKey (key : Key) : ∃ resp : HttpResponse,
    resp.deleted = some (n.deleteLocal key).1 ∧
    Performs st.lib (serve st · · (.deleteKey (some key))) n resp (n.deleteLocal key).2 := by
  have h : Performs st.lib (ask st · · (.deleteLocal key) existed?) n (n.deleteLocal key).1
      (n.deleteLocal key).2 := performs_ask l _ _ rfl rfl
  refine ⟨_, ?_, h.map fun deleted => if deleted then respond st 200 <| Wire.deleteResponse key true
    else notFound st key⟩
  generalize (n.deleteLocal key).1 = deleted
  cases deleted <;> rfl

theorem performs_putHint (key : Key) (t : NodeId) (v : Version (Document F)) :
    ∃ resp : HttpResponse, Performs st.lib
      (serve st · · (.putHint (some key) <| st.http.encode <| Wire.hintRequest t v)) n resp
      (n.addHint t key v) := by
  have h : Performs st.lib (ask st · · (.addHint t key v) some) n .done (n.addHint t key v) :=
    performs_ask l _ _ rfl rfl
  refine ⟨respond st 200 Wire.hintResponse, ?_⟩
  simpa [serve, putHint, l.http.decode_encode, Wire.readHint_hintRequest] using
    h.map fun _ => respond st 200 Wire.hintResponse

end Process

-- Operations are the same in both. The clusters differ in how nodes and messages are kept.
structure Represents [DecidableEq F] (st : Stack F K) (s : State F K)
    (c : DynamoKV.State (Document F)) : Prop where
  nodes   : ∀ r, Persists st.lib (s.nodes r) (c.node r)
  ops     : s.ops = c.ops
  deletes : s.deletes = c.deletes
  net     : List.Forall₂ (Message.Represents st) s.net c.net
  time    : s.time = c.time

namespace Represents

variable (cfg) [DecidableEq F] {s : State F K} {c : DynamoKV.State (Document F)}
variable (h : Represents st s c)
include h

theorem onNode {f : Draw K → Process K → Option (β × Process K)}
    {g : Node (Document F) → Node (Document F)}
    (hf : Performs st.lib f (c.node r) b (g <| c.node r)) :
    ∃ s', s.onNode r f = some (b, s') ∧ Represents st s' (c.modifyNode r g) := by
  obtain ⟨p, hp, hr⟩ := hf (s.draws 0) (s.nodes r) (h.nodes r)
  let s' : State F K :=
    { s with nodes := Function.update s.nodes r p, draws := fun i => s.draws (i + 1) }
  refine ⟨s', by simp [State.onNode, hp, s'], fun x => ?_, h.ops, h.deletes, h.net, h.time⟩
  rw [State.node_modifyNode]
  by_cases hx : x = r
  case pos => simpa [hx, s'] using hr
  case neg => simpa [hx, s'] using h.nodes x

-- A node is only asked for what it holds.
theorem onNode_read {f : Draw K → Process K → Option (β × Process K)}
    (hf : Performs st.lib f (c.node r) b (c.node r)) :
    ∃ s', s.onNode r f = some (b, s') ∧ Represents st s' c := by
  obtain ⟨s', hs, h'⟩ := h.onNode (g := id) hf
  refine ⟨s', hs, fun x => ?_, h'.ops, h'.deletes, h'.net, h'.time⟩
  have hn := h'.nodes x
  rw [State.node_modifyNode] at hn
  split at hn
  case isTrue hx => exact hx ▸ hn
  case isFalse   => exact hn

theorem modifyOp (i : Nat) (f : Op (Document F) → Op (Document F)) :
    Represents st (s.modifyOp i f) (c.modifyOp i f) :=
  ⟨h.nodes, congrArg (List.modify · i f) h.ops, h.deletes, h.net, h.time⟩

theorem modifyDelete (i : Nat) (f : DeleteOp (Document F) → DeleteOp (Document F)) :
    Represents st (s.modifyDelete i f) (c.modifyDelete i f) :=
  ⟨h.nodes, h.ops, congrArg (List.modify · i f) h.deletes, h.net, h.time⟩

theorem send {messages messages'} (hm : List.Forall₂ (Message.Represents st) messages messages') :
    Represents st (s.send messages) (c.send messages') :=
  ⟨h.nodes, h.ops, h.deletes, List.rel_append h.net hm, h.time⟩

theorem tick : Represents st { s with time := s.time + 1 } c.tick :=
  ⟨h.nodes, h.ops, h.deletes, h.net, congrArg (· + 1) h.time⟩

-- What a coordinator does in its memory is the same in both.
theorem inMemory {f : DynamoKV.State (Document F) → Option (DynamoKV.State (Document F))}
    (hf : ∀ nodes net, f { c with nodes, net } = (f c).map fun c' => { c' with nodes, net }) :
    Option.Rel (Represents st) (s.inMemory f) (f c) := by
  unfold State.inMemory
  rw [h.ops, h.deletes, h.time, hf ∅ []]
  have hc := hf c.nodes c.net
  generalize f c = o at hc
  cases o
  case none => exact .none
  case some c' =>
    refine .some ⟨fun r => ?_, rfl, rfl, ?_, rfl⟩ <;> rw [Option.some.inj hc]
    · exact h.nodes r
    · exact h.net

-- Without a route the node is not asked at all.
theorem onNode_noRoute (r : NodeId) : ∃ s',
    (s.onNode r fun _ p => some (noRoute st, p)) = some (noRoute st, s') ∧ Represents st s' c :=
  h.onNode_read performs_pure

theorem restart (r : NodeId) : ∃ s', s.step cfg st (.restart r) = some s' ∧ Represents st s' c := by
  obtain ⟨s', hs, h'⟩ := h.onNode_read (r := r) performs_restart
  exact ⟨s', by rw [State.step, hs]; rfl, h'⟩

variable (l : st.Lawful)
include l

theorem answer (coord r : NodeId) (key : Key) : ∃ s',
    s.answer cfg st coord r key = some (c.answer cfg coord r key, s') ∧ Represents st s' c := by
  unfold State.answer DynamoKV.State.answer Config.address
  split
  case isTrue => exact h.onNode_read <| performs_ask l _ _ rfl rfl
  case isFalse =>
    cases receive cfg.safe internalKeys key
    case none =>
      obtain ⟨s', hs, h'⟩ := h.onNode_noRoute r
      exact ⟨s', by simp only [serve, hs]; rfl, h'⟩
    case some key =>
      obtain ⟨resp, hv, hp⟩ := performs_getKey l (n := c.node r) key
      obtain ⟨s', hs, h'⟩ := h.onNode_read hp
      exact ⟨s', by simp [hs, hv], h'⟩

theorem deliverHint (coord holder target : NodeId) (key : Key) (v : Version (Document F)) : ∃ s',
    s.deliverHint cfg st coord holder target key v = some s' ∧
    Represents st s' (c.deliverHint cfg coord holder target key v) := by
  unfold State.deliverHint DynamoKV.State.deliverHint
  split
  case isTrue hc =>
    obtain ⟨s', hs, h'⟩ := h.onNode (r := holder) (g := (·.addHint target key v)) <|
      performs_ask l (.addHint target key v) some rfl rfl
    subst hc
    exact ⟨s', by rw [hs]; rfl, h'⟩
  case isFalse hc =>
    refine ⟨_, rfl, h.send <| .cons ?_ .nil⟩
    rw [Config.address, if_neg hc]
    exact .hint

theorem foldl_deliverHint (coord holder : NodeId) (key : Key) (v : Version (Document F))
    (targets : List NodeId) : ∃ s',
      targets.foldlM (fun s' t => s'.deliverHint cfg st coord holder t key v) s = some s' ∧
      Represents st s' (targets.foldl (·.deliverHint cfg coord holder · key v) c) := by
  induction targets generalizing s c
  case nil => exact ⟨s, rfl, h⟩
  case cons t targets hi =>
    obtain ⟨s₁, hs₁, h₁⟩ := h.deliverHint cfg l coord holder t key v
    obtain ⟨s₂, hs₂, h₂⟩ := hi h₁
    exact ⟨s₂, by rw [List.foldlM_cons, hs₁]; exact hs₂, h₂⟩

theorem sendWrites (i : Nat) (op : Op (Document F)) (w : Write (Document F))
    (presumedDown : List NodeId) : ∃ s', s.sendWrites cfg st i op w presumedDown = some s' ∧
      Represents st s' (c.sendWrites cfg i op w presumedDown) := by
  have hm : List.Forall₂ (Message.Represents st)
      (w.call.prefs.map fun dest => if dest = op.coord then .putLocal i dest op.key w.version
        else .put i dest (receive cfg.safe internalKeys op.key)
          (st.http.encode <| Wire.putRequest w.version))
      (w.call.prefs.map fun dest =>
        .put i dest (cfg.address internalKeys op.coord dest op.key) w.version) := by
    rw [List.forall₂_map_left_iff, List.forall₂_map_right_iff, List.forall₂_same]
    intro dest _
    unfold Config.address
    split
    case isTrue  => exact .putLocal
    case isFalse => exact .put
  unfold State.sendWrites State.sendHints DynamoKV.State.sendWrites
  cases w.hintHolder
  case none => exact ⟨_, rfl, (h.modifyOp ..).send hm⟩
  case some holder =>
    obtain ⟨s', hs, h'⟩ :=
      h.foldl_deliverHint cfg l op.coord holder op.key w.version presumedDown
    exact ⟨_, by dsimp only; rw [hs]; rfl, (h'.modifyOp ..).send hm⟩

theorem rel_read (i : Nat) (r : NodeId) :
    Option.Rel (Represents st) (s.read cfg st i r) (c.read cfg i r) := by
  unfold State.read DynamoKV.State.read
  rw [h.ops]
  cases c.ops[i]?
  case none => exact .none
  case some op =>
    refine rel_guard_bind .rfl fun _ => ?_
    obtain ⟨s', hs, h'⟩ := h.answer cfg l op.coord r op.key
    rw [hs]
    exact .some <| h'.modifyOp ..

theorem rel_putWrite (i : Nat) (down : List NodeId) :
    Option.Rel (Represents st) (s.putWrite cfg st i down) (c.putWrite cfg i down) := by
  unfold State.putWrite DynamoKV.State.putWrite
  rw [h.ops]
  cases c.ops[i]?
  case none => exact .none
  case some op =>
    refine rel_guard_bind .rfl fun _ => ?_
    generalize op.mergedRead cfg = merged
    cases op.request <;> cases merged
    case put.error e => exact .some <| h.time ▸ h.modifyOp i _
    case put.ok value merged =>
      obtain ⟨s', hs, h'⟩ := h.sendWrites cfg l i op (op.startWrite cfg down merged value)
        (op.prefs.filter (· ∈ down))
      dsimp only
      rw [hs]
      exact .some h'
    all_goals exact .none

theorem rel_writeDone (i : Nat) (r : NodeId) (ok : Bool) :
    Option.Rel (Represents st) (s.writeDone cfg st i r ok) (c.writeDone cfg i r ok) := by
  unfold State.writeDone DynamoKV.State.writeDone
  rw [h.ops]
  cases c.ops[i]?
  case none => exact .none
  case some op =>
    simp only [Option.bind_eq_bind, Option.bind_some]
    cases op.write
    case none => exact .none
    case some w =>
      refine rel_guard_bind .rfl fun _ => ?_
      have hc := h.modifyOp i (·.completeWrite r ok)
      cases w.hintHolder
      case none => exact .some hc
      case some holder =>
        dsimp only
        split
        case isFalse => exact .some hc
        case isTrue  =>
          obtain ⟨s', hs, h'⟩ := hc.deliverHint cfg l op.coord holder r op.key w.version
          rw [hs]
          exact .some h'

omit l in
theorem rel_invokeDelete (coord : NodeId) (key : Key) :
    Option.Rel (Represents st) (s.invokeDelete cfg coord key) (c.invokeDelete cfg coord key) := by
  unfold State.invokeDelete DynamoKV.State.invokeDelete
  cases cfg.preferenceList key
  case none => exact .none
  case some prefs =>
    have ha : Represents st
        { s with deletes := s.deletes ++ [DeleteOp.submit coord key s.time prefs] }
        (c.addDelete <| .submit coord key c.time prefs) := by
      refine ⟨h.nodes, h.ops, ?_, h.net, h.time⟩
      rw [h.deletes, h.time]
      rfl
    refine .some <| ha.send ?_
    rw [List.forall₂_map_left_iff, List.forall₂_map_right_iff, List.forall₂_same]
    intro dest _
    unfold Config.address
    rw [h.deletes]
    split
    case isTrue  => exact .deleteLocal
    case isFalse => exact .delete

theorem onNode_putKey (dest : NodeId) (key : Option Key) (v : Version (Document F)) :
    ∃ (resp : HttpResponse) (s' : State F K),
      (s.onNode dest fun draw p =>
        serve st draw p <| .putKey key <| st.http.encode <| Wire.putRequest v) = some (resp, s') ∧
      (resp.statusCode = 200 ↔ key.isSome) ∧
      Represents st s' (key.elim c fun key => c.modifyNode dest (·.putLocal key v)) := by
  cases key
  case none =>
    obtain ⟨s', hs, h'⟩ := h.onNode_noRoute dest
    exact ⟨noRoute st, s', hs, by simp [noRoute, respond], h'⟩
  case some key =>
    obtain ⟨resp, hr, hp⟩ := performs_putKey l (n := c.node dest) key v
    obtain ⟨s', hs, h'⟩ := h.onNode (g := (·.putLocal key v)) hp
    exact ⟨resp, s', hs, by simp [hr], h'⟩

theorem handle_put (i : Nat) (dest : NodeId) (key : Option Key) (v : Version (Document F)) : ∃ s',
    s.handle st (.put i dest key <| st.http.encode <| Wire.putRequest v) = some s' ∧
      Represents st s' (c.handle <| .put i dest key v) := by
  obtain ⟨resp, s', hs, hr, h'⟩ := h.onNode_putKey l dest key v
  cases key
  case none     => exact ⟨s', by simp [State.handle, hs, hr], h'⟩
  case some key => exact ⟨_, by simp [State.handle, hs, hr], h'.modifyOp ..⟩

theorem handle_flush (holder dest : NodeId) (hintKey : Key) (key : Option Key)
    (v : Version (Document F)) : ∃ s', s.handle st
        (.flush holder dest hintKey key <| st.http.encode <| Wire.putRequest v) = some s' ∧
      Represents st s' (c.handle <| .flush holder dest hintKey key v) := by
  obtain ⟨resp, s', hs, hr, h'⟩ := h.onNode_putKey l dest key v
  cases key
  case none     => exact ⟨s', by simp [State.handle, hs, hr], h'⟩
  case some key => exact ⟨_, by simp [State.handle, hs, hr], h'.send <| .cons .flushed .nil⟩

theorem handle_delete (i : Nat) (dest : NodeId) (key : Option Key) : ∃ s',
    s.handle st (.delete i dest key) = some s' ∧
      Represents st s' (c.handle <| .delete i dest key) := by
  cases key
  case none =>
    obtain ⟨s', hs, h'⟩ := h.onNode_noRoute dest
    exact ⟨_, by simp only [State.handle, serve, hs]; rfl, h'.modifyDelete ..⟩
  case some key =>
    obtain ⟨resp, hr, hp⟩ := performs_deleteKey l (n := c.node dest) key
    obtain ⟨s', hs, h'⟩ := h.onNode (g := (·.deleteLocal key |>.2)) hp
    exact ⟨_, by simp [State.handle, hs, hr], h'.modifyDelete ..⟩

theorem handle_hint (dest target : NodeId) (key : Option Key) (v : Version (Document F)) : ∃ s',
    s.handle st (.hint dest key <| st.http.encode <| Wire.hintRequest target v) = some s' ∧
      Represents st s' (c.handle <| .hint dest target key v) := by
  cases key
  case none =>
    obtain ⟨s', hs, h'⟩ := h.onNode_noRoute dest
    exact ⟨s', by simp only [State.handle, serve, hs]; rfl, h'⟩
  case some key =>
    obtain ⟨resp, hp⟩ := performs_putHint l (n := c.node dest) key target v
    obtain ⟨s', hs, h'⟩ := h.onNode (g := (·.addHint target key v)) hp
    exact ⟨s', by simp only [State.handle, hs]; rfl, h'⟩

theorem handle {message message'} (hm : Message.Represents st message message') : ∃ s',
    s.handle st message = some s' ∧ Represents st s' (c.handle message') := by
  cases hm
  case putLocal i r key v =>
    obtain ⟨s', hs, h'⟩ := h.onNode (r := r) (g := (·.putLocal key v)) <|
      performs_ask l (.putLocal key v) some rfl rfl
    exact ⟨_, by simp only [State.handle, hs]; rfl, h'.modifyOp ..⟩
  case deleteLocal i r key =>
    obtain ⟨s', hs, h'⟩ := h.onNode (r := r) (g := (·.deleteLocal key |>.2)) <|
      performs_ask l (.deleteLocal key) existed? rfl rfl
    exact ⟨_, by simp only [State.handle, hs]; rfl, h'.modifyDelete ..⟩
  case flushed g t key =>
    obtain ⟨s', hs, h'⟩ := h.onNode (r := g) (g := (·.clearHints t key)) <|
      performs_ask l (.clearKey t key) some rfl rfl
    exact ⟨s', by simp only [State.handle, hs]; rfl, h'⟩
  case put    => exact h.handle_put l ..
  case delete => exact h.handle_delete l ..
  case hint   => exact h.handle_hint l ..
  case flush  => exact h.handle_flush l ..

theorem rel_deliver (m : Nat) (again : Bool) :
    Option.Rel (Represents st) (s.deliver st m again) (c.deliver m again) := by
  have rest : List.Forall₂ (Message.Represents st) (if again then s.net else s.net.eraseIdx m)
      (if again then c.net else c.net.eraseIdx m) := by
    split
    case isTrue  => exact h.net
    case isFalse => exact Log.forall₂_eraseIdx h.net m
  refine (Log.rel_getElem? h.net m).bind fun message message' hm => ?_
  have h' : Represents st { s with net := if again then s.net else s.net.eraseIdx m }
      { c with net := if again then c.net else c.net.eraseIdx m } :=
    ⟨h.nodes, h.ops, h.deletes, rest, h.time⟩
  obtain ⟨s', hs, h'⟩ := h'.handle l hm
  exact hs ▸ .some h'

theorem rel_flush (holder target : NodeId) :
    Option.Rel (Represents st) (s.flush cfg st holder target) (c.flush cfg holder target) := by
  refine rel_guard_bind .rfl fun hg => ?_
  obtain ⟨s', hs, h'⟩ := h.onNode_read (r := holder) <|
    performs_ask l (.pendingFor target) pending? rfl rfl
  rw [hs]
  refine .some <| h'.send <| List.rel_flatMap (List.forall₂_same.mpr fun _ _ => rfl) ?_
  rintro ⟨key, versions⟩ _ rfl
  rw [List.forall₂_map_left_iff, List.forall₂_map_right_iff, List.forall₂_same]
  intro v _
  rw [Config.address, if_neg hg.right]
  exact .flush

theorem rel_next (label : DynamoKV.Label (Document F)) :
    Option.Rel (Represents st) (s.next cfg st label) (c.next cfg label) := by
  cases label
  case read i r           => exact h.rel_read cfg l i r
  case putWrite i down    => exact h.rel_putWrite cfg l i down
  case writeDone i r ok   => exact h.rel_writeDone cfg l i r ok
  case invokeDelete r key => exact h.rel_invokeDelete cfg r key
  case deliver m again    => exact h.rel_deliver l m again
  case flush g t          => exact h.rel_flush cfg l g t
  case lose m =>
    refine rel_guard_bind (by rw [h.net.length_eq]) fun _ => .some ?_
    exact ⟨h.nodes, h.ops, h.deletes, Log.forall₂_eraseIdx h.net m, h.time⟩
  case invoke r key request =>
    refine h.inMemory (f := (·.invoke cfg r key request)) fun nodes net => ?_
    unfold DynamoKV.State.invoke
    cases cfg.preferenceList key <;> rfl
  case readDone i r ok =>
    refine h.inMemory (f := (·.readDone i r ok)) fun nodes net => ?_
    simp only [DynamoKV.State.readDone, Option.pure_def, Option.bind_eq_bind, Option.map_bind,
      Function.comp_apply, Option.map_some]
    rfl
  case getReturn i =>
    refine h.inMemory (f := (·.getReturn cfg i)) fun nodes net => ?_
    simp only [DynamoKV.State.getReturn, Option.pure_def, Option.bind_eq_bind, Option.map_bind,
      Function.comp_apply, Option.map_some]
    rfl
  case putReturn i =>
    refine h.inMemory (f := (·.putReturn cfg i)) fun nodes net => ?_
    simp only [DynamoKV.State.putReturn, Option.pure_def, Option.bind_eq_bind, Option.map_bind,
      Function.comp_apply, Option.map_some]
    rfl
  case deleteDone i r ok =>
    refine h.inMemory (f := (·.deleteDone i r ok)) fun nodes net => ?_
    simp only [DynamoKV.State.deleteDone, Option.pure_def, Option.bind_eq_bind, Option.map_bind,
      Function.comp_apply, Option.map_some]
    rfl
  case deleteReturn i =>
    refine h.inMemory (f := (·.deleteReturn cfg i)) fun nodes net => ?_
    simp only [DynamoKV.State.deleteReturn, Option.pure_def, Option.bind_eq_bind, Option.map_bind,
      Function.comp_apply, Option.map_some]
    rfl

-- A restart goes unnoticed.
theorem rel_step (label : Label F) : Option.Rel (Represents st) (s.step cfg st label)
    (label.cluster?.elim (some c) (DynamoKV.step cfg c)) := by
  cases label
  case cluster label =>
    simp only [State.step, Label.cluster?, Option.elim_some, DynamoKV.step, Option.map_eq_bind]
    exact (h.rel_next cfg l label).bind fun _ _ h' => .some h'.tick
  case restart r =>
    obtain ⟨s', hs, h'⟩ := h.restart cfg r
    exact hs ▸ .some h'

end Represents

theorem Represents.started [DecidableEq F] (l : st.Lawful) (h : Started s) :
    Represents st s .initial := by
  refine ⟨fun r => ?_, h.ops, h.deletes, h.net ▸ .nil, h.time⟩
  obtain ⟨generated, generated', hr⟩ := h.nodes r
  exact hr ▸ Persists.boot l.lib generated generated'

-- Along the same steps either both systems can go or neither can, so no node ever raises an
-- exception about what it has stored or received. All operations are the same, wherever nodes are
-- restarted.
theorem represents_cluster [DecidableEq F] {fl : JsonText.Floats F} {base64 : Base64}
    {aesgcm : AESGCM K} {http : HttpJson (Document F)} (lawful : fl.Lawful)
    (decode : ∀ bytes, base64.decode (base64.encode bytes) = some bytes)
    (decrypt : ∀ key (nonce : Nonce) data associatedData,
      aesgcm.decrypt key nonce.bytes (aesgcm.encrypt key nonce.bytes data associatedData)
        associatedData = some data)
    (hh : http.Lawful) (cfg : Config) {s : State F K} (h : Started s) (ls : List (Label F)) :
    Option.Rel (Represents <| stack fl base64 aesgcm http)
      ((system cfg <| stack fl base64 aesgcm http).exec (fun _ _ => True) s ls)
      ((cluster cfg (Document F)).exec (fun _ _ => True) .initial <|
        ls.filterMap Label.cluster?) := by
  have l : (stack fl base64 aesgcm http).Lawful :=
    ⟨⟨lawful_pythonJson lawful, decode, decrypt⟩, rfl, hh⟩
  exact TransitionSystem.exec_filterMap (system cfg _) (cluster cfg _)
    (fun label s c r => r.rel_step cfg l label) (.started l h) ls

section Example

abbrev twoNodes : Config :=
  .ofNodes ["a", "b"] 2 1 2

def standInHttp : HttpJson (Document Empty) where
  encode d := Utf8.encode ((pythonJson noFloats).dumps d).toList
  decode   := (pythonJson noFloats).loadsBytes

theorem lawful_standInHttp : standInHttp.Lawful :=
  ⟨(lawful_pythonJson lawful_noFloats).loadsBytes_dumps⟩

abbrev emptyFiles : State Empty Unit :=
  ⟨fun _ => boot () () .empty .empty none, [], [], [], 0, fun i => ⟨standInDraws i, (), ()⟩⟩

theorem started_emptyFiles : Started emptyFiles :=
  ⟨fun _ => ⟨(), (), rfl⟩, rfl, rfl, rfl, rfl⟩

-- "b" is asked by "a" to store a value, and has been restarted when it is asked for it.
def putRestartGet : List (Label Empty) :=
  [.cluster <| .invoke "a" "k" (.put <| .string "x\n"), .cluster <| .read 0 "a",
    .cluster <| .readDone 0 "a" true, .cluster <| .putWrite 0 [], .cluster <| .deliver 1 false,
    .cluster <| .deliver 0 false, .cluster <| .writeDone 0 "a" true,
    .cluster <| .writeDone 0 "b" true, .cluster <| .putReturn 0, .restart "b",
    .cluster <| .invoke "a" "k" .get, .cluster <| .read 1 "b", .cluster <| .readDone 1 "b" true,
    .cluster <| .getReturn 1]

def answered (ops : List (Op (Document Empty))) (i : Nat) : Option String := do
  let outcome ← (← ops[i]?).outcome
  (← outcome.response.toOption).value.string?

theorem represents_cluster_restart : ∃ s : State Empty Unit,
    (system twoNodes <| stack noFloats standIn.base64 standIn.aesgcm standInHttp).exec
      (fun _ _ => True) emptyFiles putRestartGet = some s ∧
    answered s.ops 1 = some "x\n" := by
  have hr := represents_cluster lawful_noFloats lawful_standIn.decode lawful_standIn.decrypt
    lawful_standInHttp twoNodes started_emptyFiles putRestartGet
  have hc : ((cluster twoNodes (Document Empty)).exec (fun _ _ => True) .initial
      (putRestartGet.filterMap Label.cluster?)).bind (answered ·.ops 1) = some "x\n" := by
    decide +kernel
  generalize (cluster twoNodes (Document Empty)).exec (fun _ _ => True) .initial
    (putRestartGet.filterMap Label.cluster?) = o at hr hc
  generalize (system twoNodes <| stack noFloats standIn.base64 standIn.aesgcm standInHttp).exec
    (fun _ _ => True) emptyFiles putRestartGet = o' at hr
  cases hr
  case none => contradiction
  case some s c h => exact ⟨s, rfl, h.ops ▸ hc⟩

end Example
end DynamoKV.Deployment
