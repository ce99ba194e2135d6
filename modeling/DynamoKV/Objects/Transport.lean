import DynamoKV.Lib.Percent
import DynamoKV.Objects.Storage

-- How a key travels from a coordinator to the internal routes of its peers. It is interpolated into
-- a URL as it is, and a peer's handler receives what its server decodes from the URL's path.
namespace DynamoKV

def internalKeys : String :=
  "/internal/keys/"

def internalHints : String :=
  "/internal/hints/"

def urlPath (url : List Char) : List Char :=
  url.takeWhile fun c => c ≠ '?' && c ≠ '#'

-- The key in a decoded path which matches `{route}{key}`, where keys have at least one character
-- and no slashes.
def routeKey (route : String) (path : List Char) : Option Key :=
  let key := path.drop route.toList.length
  if path.take route.toList.length = route.toList ∧ key ≠ [] ∧ '/' ∉ key then
    some (String.ofList key)
  else none

-- The key which a peer's handler receives for a URL made of a route and a key.
def receive (safe : Percent.SafeSet) (route : String) (key : Key) : Option Key :=
  let url  := route.toList ++ key.toList
  let sent := Percent.encode safe (urlPath url)
  routeKey route (Utf8.decode <| Percent.decode sent)

-- The keys which the public routes accept.
def PublicKey (key : Key) : Prop :=
  key ≠ "" ∧ '/' ∉ key.toList

-- The keys without characters that have a meaning in URLs.
def PlainKey (key : Key) : Prop :=
  '?' ∉ key.toList ∧ '#' ∉ key.toList ∧ ¬Percent.hasEscape key.toList

instance : Decidable (PublicKey key) :=
  inferInstanceAs (Decidable (_ ∧ _))

instance : Decidable (PlainKey key) :=
  inferInstanceAs (Decidable (_ ∧ _))

-- The routes are made of characters which are sent and decoded as they are.
structure PlainRoute (route : String) : Prop where
  no_query    : '?' ∉ route.toList
  no_fragment : '#' ∉ route.toList
  no_percent  : '%' ∉ route.toList

theorem plainRoute_internalKeys : PlainRoute internalKeys :=
  ⟨by decide, by decide, by decide⟩

theorem plainRoute_internalHints : PlainRoute internalHints :=
  ⟨by decide, by decide, by decide⟩

-- What is left of a key after it was cut, sent and decoded.
def decodedKey (key : Key) : List Char :=
  Utf8.decode <| Percent.decode <| urlPath key.toList

-- The key which peers receive, if any.
def receivedKey (key : Key) : Option Key :=
  if decodedKey key ≠ [] ∧ '/' ∉ decodedKey key then some (String.ofList <| decodedKey key)
  else none

section Receive

variable {safe safe' : Percent.SafeSet} {route route' : String} {key : Key}

theorem urlPath_append (hq : '?' ∉ pre) (hf : '#' ∉ pre) (cs : List Char) :
    urlPath (pre ++ cs) = pre ++ urlPath cs := by
  refine List.takeWhile_append_of_pos fun c hc => ?_
  have hq' : c ≠ '?' := fun e => hq (e ▸ hc)
  have hf' : c ≠ '#' := fun e => hf (e ▸ hc)
  simp [hq', hf']

theorem urlPath_eq_self (hq : '?' ∉ cs) (hf : '#' ∉ cs) : urlPath cs = cs := by
  simpa [urlPath] using urlPath_append hq hf []

-- The key received does not depend on the route, nor on which characters the sender escapes.
theorem receive_eq (h : PlainRoute route) :
    receive safe route key = receivedKey key := by
  simp only [receive, routeKey]
  rw [urlPath_append h.no_query h.no_fragment, Percent.decode_encode,
    Percent.decode_append_of_not_mem_percent h.no_percent, Utf8.decode_encode_append]
  simp only [List.take_left, List.drop_left, true_and]
  rfl

theorem decodedKey_eq_self (h : PlainKey key) : decodedKey key = key.toList := by
  rw [decodedKey, urlPath_eq_self h.left h.right.left,
    Percent.decode_of_not_hasEscape h.right.right, Utf8.decode_encode]

theorem countP_urlPath_lt (h : '?' ∈ cs ∨ '#' ∈ cs) :
    (urlPath cs).countP Utf8.isAscii < cs.countP Utf8.isAscii := by
  induction cs
  case nil => simp at h
  case cons c cs hi =>
    by_cases hc : c = '?' ∨ c = '#'
    case pos =>
      have ha : Utf8.isAscii c := by rcases hc with rfl | rfl <;> decide
      have hp : urlPath (c :: cs) = [] := by rcases hc with rfl | rfl <;> simp [urlPath]
      simp [hp, List.countP_cons_of_pos ha]
    case neg =>
      simp only [not_or] at hc
      have hp : urlPath (c :: cs) = c :: urlPath cs := by simp [urlPath, hc]
      have hm : '?' ∈ cs ∨ '#' ∈ cs := by
        simpa [Ne.symm hc.left, Ne.symm hc.right] using h
      have := hi hm
      rw [hp, List.countP_cons, List.countP_cons (l := cs)]
      omega

-- Cutting a key or decoding an escape in it loses ASCII characters.
theorem decodedKey_ne_self (h : ¬PlainKey key) : decodedKey key ≠ key.toList := by
  intro he
  have h₁ := Utf8.countP_decode_le <| Percent.decode (urlPath key.toList)
  have h₂ := Percent.countP_decode_add_le <| urlPath key.toList
  have h₃ : (decodedKey key).countP Utf8.isAscii = key.toList.countP Utf8.isAscii := by rw [he]
  rw [decodedKey] at h₃
  by_cases hc : '?' ∈ key.toList ∨ '#' ∈ key.toList
  case pos =>
    have := countP_urlPath_lt hc
    omega
  case neg =>
    simp only [not_or] at hc
    have hp := urlPath_eq_self hc.left hc.right
    have hx : Percent.hasEscape key.toList := by
      by_contra hx
      exact h ⟨hc.left, hc.right, hx⟩
    rw [hp, if_pos hx] at h₂
    rw [hp] at h₁ h₃
    omega

theorem receive_eq_self_iff (hr : PlainRoute route) (hk : PublicKey key) :
    receive safe route key = some key ↔ PlainKey key := by
  rw [receive_eq hr, receivedKey]
  constructor
  case mp =>
    intro h
    by_contra hp
    split at h
    case isFalse => contradiction
    case isTrue  =>
      refine decodedKey_ne_self hp ?_
      rw [← String.toList_ofList (l := decodedKey key), Option.some.inj h]
  case mpr =>
    intro hp
    have hn : key.toList ≠ [] := fun e => hk.left <| String.toList_eq_nil_iff.mp e
    rw [decodedKey_eq_self hp, if_pos ⟨hn, hk.right⟩, String.ofList_toList]

end Receive
end DynamoKV
