import DynamoKV.Objects.Document

-- The bodies of the requests which nodes make to each other, and how they are read.
namespace DynamoKV

-- How documents are sent by HTTP.
structure HttpJson (J : Type) where
  encode : J → List UInt8
  decode : List UInt8 → Option J

structure HttpJson.Lawful {J : Type} (http : HttpJson J) : Prop where
  decode_encode : ∀ d, http.decode (http.encode d) = some d

namespace Dict

variable {β : Type*} {k k' : String} {b : β} {d : Dict β}

def cons (k : String) (b : β) (d : Dict β) (h : k ∉ d) : Dict β where
  entries   := ⟨k, b⟩ :: d.entries
  nodupKeys := List.nodupKeys_cons.mpr ⟨h, d.nodupKeys⟩

theorem lookup_cons_self (h : k ∉ d) : (cons k b d h).lookup k = some b :=
  List.dlookup_cons_eq ..

theorem lookup_cons_of_ne (h : k ∉ d) (hk : k' ≠ k) : (cons k b d h).lookup k' = d.lookup k' :=
  List.dlookup_cons_ne _ _ hk

theorem not_mem_pair (h : k₁ ≠ k₂) (h₁ : k ≠ k₁) (h₂ : k ≠ k₂) (b₁ b₂ : β) :
    k ∉ pair k₁ k₂ h b₁ b₂ := by
  rw [AList.mem_keys]
  simp [AList.keys, pair, List.keys, h₁, h₂]

end Dict

namespace Wire

variable {F : Type}

def bool (b : Bool) : Document F :=
  ⟨.bool b, rfl⟩

-- `InternalPutRequest`
def putRequest (version : Version (Document F)) : Document F :=
  versionDocument version.toDict

def readPut (d : Document F) : Option (Version (Document F)) :=
  (versionOf? d).map Version.fromDict

theorem value_ne_clock : "value" ≠ "clock" := by
  decide

-- The items of a version, to which those of a request or a response are added.
def items (v : VersionDict (Document F)) : Dict (Document F) :=
  .pair "value" "clock" value_ne_clock v.value (clockDocument v.clock)

theorem not_mem_items (hv : k ≠ "value") (hc : k ≠ "clock") (v : VersionDict (Document F)) :
    k ∉ items v :=
  Dict.not_mem_pair _ hv hc _ _

-- `InternalHintRequest`
def hintRequest (target : NodeId) (version : Version (Document F)) : Document F :=
  .object <| .cons "target" (.string target) (items version.toDict) <|
    not_mem_items (by decide) (by decide) _

def readHint (d : Document F) : Option (NodeId × Version (Document F)) := do
  let target ← (← d.member? "target") |>.string?
  let version ← readPut d
  return (target, version)

-- `KeyValueResponse`
def keyValueResponse (key : Key) (version : Version (Document F)) : Document F :=
  .object <| .cons "key" (.string key) (items version.toDict) <|
    not_mem_items (by decide) (by decide) _

-- `InternalVersionsResponse`
def versionsResponse (key : Key) (versions : List (Version (Document F))) : Document F :=
  .object <| .pair "key" "versions" (by decide) (.string key) <|
    siblingsDocument <| versions.map Version.toDict

-- `[Version.from_dict(v) for v in resp.json()["versions"]]`
def readVersions (d : Document F) : Option (List (Version (Document F))) := do
  let versions ← siblingsOf? (← d.member? "versions")
  return versions.map Version.fromDict

-- `DeleteResponse`
def deleteResponse (key : Key) (deleted : Bool) : Document F :=
  .object <| .pair "key" "deleted" (by decide) (.string key) (bool deleted)

-- `InternalHintResponse`
def hintResponse : Document F :=
  .object <| .singleton "status" (.string "ok")

def detail (text : String) : Document F :=
  .object <| .singleton "detail" (.string text)

theorem readPut_putRequest (version : Version (Document F)) :
    readPut (putRequest version) = some version := by
  simp [readPut, putRequest, versionOf?_versionDocument]

theorem readHint_hintRequest (target : NodeId) (version : Version (Document F)) :
    readHint (hintRequest target version) = some (target, version) := by
  have ht : (hintRequest target version).member? "target" = some (.string target) := by
    rw [hintRequest, Document.member?_object, Dict.lookup_cons_self]
  have hm {key} (hk : key ≠ "target") :
      (hintRequest target version).member? key = (putRequest version).member? key := by
    rw [hintRequest, Document.member?_object, Dict.lookup_cons_of_ne _ hk, putRequest,
      versionDocument, Document.member?_object]
    rfl
  have hv : "value" ≠ "target" := by decide
  have hc : "clock" ≠ "target" := by decide
  have hr : readPut (hintRequest target version) = readPut (putRequest version) := by
    simp only [readPut, versionOf?, hm hv, hm hc]
  simp only [readHint, ht, hr, readPut_putRequest]
  rfl

theorem readVersions_versionsResponse (key : Key) (versions : List (Version (Document F))) :
    readVersions (versionsResponse key versions) = some versions := by
  simp [readVersions, versionsResponse, Dict.lookup_pair_snd, siblingsOf?_siblingsDocument]

end Wire
end DynamoKV
