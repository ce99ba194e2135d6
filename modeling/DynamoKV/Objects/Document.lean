import DynamoKV.Lib.JsonText.RoundTrip
import DynamoKV.Lib.JsonText.WellFormed
import DynamoKV.Objects.Encryption
import DynamoKV.Objects.HintStore

-- The JSON documents which nodes store, and how versions and hints are represented by them.
namespace DynamoKV

open JsonText

abbrev Document (F : Type) :=
  { v : Value F // v.valid }

abbrev Dict (β : Type*) :=
  AList (fun _ : String => β)

namespace Dict

variable {β γ : Type*}

def map (f : β → γ) (d : Dict β) : Dict γ where
  entries   := d.entries.map <| .map id fun _ => f
  nodupKeys := d.nodupKeys.map₂ (fun _ => f) _

-- A dict comprehension, which may raise an exception for a value.
def read {β γ : Type} (f : β → Option γ) (d : Dict β) : Option (Dict γ) :=
  (d.entries.mapM fun e => (f e.2).map fun c => (⟨e.1, c⟩ : Σ _ : String, γ)).map List.toAList

-- A dict literal with two items.
def pair (k₁ k₂ : String) (h : k₁ ≠ k₂) (b₁ b₂ : β) : Dict β where
  entries   := [⟨k₁, b₁⟩, ⟨k₂, b₂⟩]
  nodupKeys := by simp [List.NodupKeys, List.keys, h]

theorem lookup_pair_fst (h : k₁ ≠ k₂) (b₁ b₂ : β) : (pair k₁ k₂ h b₁ b₂).lookup k₁ = some b₁ :=
  List.dlookup_cons_eq ..

theorem lookup_pair_snd (h : k₁ ≠ k₂) (b₁ b₂ : β) : (pair k₁ k₂ h b₁ b₂).lookup k₂ = some b₂ :=
  (List.dlookup_cons_ne _ _ h.symm).trans <| List.dlookup_cons_eq ..

theorem dedupKeys_eq_self {l : List (Σ _ : String, β)} (h : l.NodupKeys) : l.dedupKeys = l := by
  induction l
  case nil           => rfl
  case cons e l hi =>
    obtain ⟨hn, h⟩ := List.nodupKeys_cons.mp h
    rw [List.dedupKeys_cons, hi h, List.kinsert_def, List.kerase_of_notMem_keys hn]

theorem read_map {β γ : Type} {f : β → γ} {g : γ → Option β} (h : ∀ b, g (f b) = some b)
    (d : Dict β) : (d.map f).read g = some d := by
  have he : (d.map f).entries.mapM (fun e => (g e.2).map fun c => (⟨e.1, c⟩ : Σ _ : String, β)) =
      some d.entries := by
    simp only [Dict.map, List.mapM_map, Function.comp_def, Sigma.map, id_eq, h, Option.map_some]
    exact List.mapM_pure (m := Option) (f := id) |>.trans (by simp)
  rw [read, he, Option.map_some]
  exact congrArg some <| AList.ext <| dedupKeys_eq_self d.nodupKeys

end Dict

namespace Document

variable {F : Type}

def null : Document F :=
  ⟨.null, rfl⟩

def string (s : String) : Document F :=
  ⟨.str s, rfl⟩

def int (n : Int) : Document F :=
  ⟨.int n, rfl⟩

def array (ds : List (Document F)) : Document F :=
  ⟨.arr <| ds.map Subtype.val, allValid_iff.mpr fun _ h =>
    have ⟨d, _, he⟩ := List.mem_map.mp h
    he ▸ d.property⟩

def object (d : Dict (Document F)) : Document F :=
  ⟨.obj <| d.entries.map fun e => (e.1, e.2.val), by
    refine Bool.and_eq_true_iff.mpr ⟨decide_eq_true ?_, membersValid_iff.mpr fun m h => ?_⟩
    · rw [List.map_map]
      exact d.nodupKeys
    · obtain ⟨e, _, rfl⟩ := List.mem_map.mp h
      exact e.2.property⟩

def string? : Document F → Option String
  | ⟨.str s, _⟩ => some s
  | _           => none

def int? : Document F → Option Int
  | ⟨.int n, _⟩ => some n
  | _           => none

def elements? : Document F → Option (List (Document F))
  | ⟨.arr vs, h⟩ => some <| vs.pmap Subtype.mk <| allValid_iff.mp h
  | _            => none

def members? : Document F → Option (Dict (Document F))
  | ⟨.obj ms, h⟩ => some <| List.toAList <|
    ms.pmap (fun m h => ⟨m.1, m.2, h⟩) <| membersValid_iff.mp (Bool.and_eq_true_iff.mp h).right
  | _            => none

def member? (d : Document F) (key : String) : Option (Document F) :=
  d.members?.bind (·.lookup key)

theorem array_ne_null (ds : List (Document F)) : array ds ≠ null :=
  fun h => nomatch congrArg Subtype.val h

theorem object_ne_null (d : Dict (Document F)) : object d ≠ null :=
  fun h => nomatch congrArg Subtype.val h

@[simp]
theorem elements?_array (ds : List (Document F)) : (array ds).elements? = some ds := by
  simp only [array, elements?, List.pmap_map]
  exact congrArg some <| (List.pmap_eq_map (f := id) _).trans (List.map_id ds)

@[simp]
theorem members?_object (d : Dict (Document F)) : (object d).members? = some d := by
  simp only [object, members?, List.pmap_map]
  refine congrArg some <| AList.ext ?_
  simp [List.pmap_eq_map, Dict.dedupKeys_eq_self d.nodupKeys]

@[simp]
theorem member?_object (d : Dict (Document F)) : (object d).member? key = d.lookup key := by
  simp [member?]

end Document

-- What the storages use of the `json` module.
def pythonJson {F : Type} (fl : Floats F) : Json (Document F) where
  null          := .null
  dumps d       := String.ofList <| dump fl d.val
  loads text    := (parse fl text.toList).pmap Subtype.mk fun _ => valid_of_parse
  loadsBytes bs :=
    let text := Utf8.decode bs
    if Utf8.encode text = bs then (parse fl text).pmap Subtype.mk fun _ => valid_of_parse else none
  envelope n c  := .object <| .pair "nonce" "ciphertext" (by decide) (.string n) (.string c)
  nonce d       := (d.member? "nonce").bind Document.string?
  ciphertext d  := (d.member? "ciphertext").bind Document.string?

theorem lawful_pythonJson {F : Type} {fl : Floats F} (l : fl.Lawful) : (pythonJson fl).Lawful where
  loads_dumps d := by
    simp [pythonJson, parse_dump l d.property]
  loadsBytes_dumps d := by
    simp [pythonJson, Utf8.decode_encode, parse_dump l d.property]
  nonce_envelope n c := by
    simp [pythonJson, Dict.lookup_pair_fst, Document.string?, Document.string]
  ciphertext_envelope n c := by
    simp [pythonJson, Dict.lookup_pair_snd, Document.string?, Document.string]
  envelope_ne_null n c := Document.object_ne_null _

section Codecs

variable {F : Type}

def clockDocument (clock : Dict Int) : Document F :=
  .object <| clock.map .int

def clockOf? (d : Document F) : Option (Dict Int) :=
  d.members?.bind (·.read Document.int?)

-- `to_dict`
def versionDocument (v : VersionDict (Document F)) : Document F :=
  .object <| .pair "value" "clock" (by decide) v.value (clockDocument v.clock)

def versionOf? (d : Document F) : Option (VersionDict (Document F)) := do
  let value ← d.member? "value"
  let clock ← (← d.member? "clock") |> clockOf?
  return ⟨value, clock⟩

-- The value of a key in the data store, and a list of hints.
def siblingsDocument (vs : List (VersionDict (Document F))) : Document F :=
  .array <| vs.map versionDocument

def siblingsOf? (d : Document F) : Option (List (VersionDict (Document F))) :=
  d.elements?.bind (·.mapM versionOf?)

def blobDocument (blob : HintBlob (Document F)) : Document F :=
  .object <| Dict.map siblingsDocument blob

def blobOf? (d : Document F) : Option (HintBlob (Document F)) :=
  d.members?.bind (·.read siblingsOf?)

theorem clockOf?_clockDocument (clock : Dict Int) :
    clockOf? (clockDocument clock : Document F) = some clock := by
  have h : ∀ n : Int, (Document.int n : Document F).int? = some n := fun _ => rfl
  simp [clockOf?, clockDocument, Dict.read_map h]

theorem versionOf?_versionDocument (v : VersionDict (Document F)) :
    versionOf? (versionDocument v) = some v := by
  simp [versionOf?, versionDocument, Dict.lookup_pair_fst, Dict.lookup_pair_snd,
    clockOf?_clockDocument]

theorem siblingsOf?_siblingsDocument (vs : List (VersionDict (Document F))) :
    siblingsOf? (siblingsDocument vs) = some vs := by
  simp only [siblingsOf?, siblingsDocument, Document.elements?_array, Option.bind_some,
    List.mapM_map, Function.comp_def, versionOf?_versionDocument]
  exact (List.mapM_pure (m := Option) (f := id)).trans (by simp)

theorem blobOf?_blobDocument (blob : HintBlob (Document F)) :
    blobOf? (blobDocument blob) = some blob := by
  simp [blobOf?, blobDocument, Dict.read_map siblingsOf?_siblingsDocument]

theorem siblingsDocument_ne_null (vs : List (VersionDict (Document F))) :
    siblingsDocument vs ≠ .null :=
  Document.array_ne_null _

theorem blobDocument_ne_null (blob : HintBlob (Document F)) : blobDocument blob ≠ .null :=
  Document.object_ne_null _

end Codecs
end DynamoKV
