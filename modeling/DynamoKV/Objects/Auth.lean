import DynamoKV.Objects.Operation

-- The authorization of client requests by the namespaces of their keys.
namespace DynamoKV

def namespaceForKey (key : Key) : String :=
  if ':' ∈ key.toList then String.ofList <| key.toList.takeWhile (· ≠ ':') else "default"

inductive Method
  | put
  | get
  | delete

-- `_METHOD_TO_VERB`
def Method.verb : Method → String
  | put    => "write"
  | get    => "read"
  | delete => "delete"

abbrev Namespaces :=
  AList (fun _ : String => List String)

structure AuthContext where
  clientId   : String
  namespaces : Namespaces

-- What the table of tokens says about one of them.
structure TokenEntry where
  id         : String
  namespaces : Option Namespaces

abbrev AuthTokens :=
  AList (fun _ : String => TokenEntry)

def bearer : String :=
  "Bearer "

def TokenEntry.allowedVerbs (entry : TokenEntry) (ns : String) : List String :=
  ((entry.namespaces.getD ∅).lookup ns).getD []

-- The client id that is stashed for the audit log, and the result. Without a table of tokens
-- everything is allowed.
def getAuthContext {α : Type*} (authTokens : Option AuthTokens) (authorization : Option String)
    (method : Method) (key : Key) : String × Response α AuthContext :=
  match authTokens with
  | none            => ("anonymous", .ok ⟨"anonymous", ∅⟩)
  | some authTokens =>
    let authHeader := (authorization.getD "").toList
    if ¬bearer.toList <+: authHeader then
      ("anonymous", .error ⟨401, .text "missing or malformed Authorization header"⟩)
    else match authTokens.lookup <| String.ofList <| authHeader.drop bearer.length with
      | none       => ("invalid", .error ⟨401, .text "invalid token"⟩)
      | some entry =>
        let ns := namespaceForKey key
        if method.verb ∉ entry.allowedVerbs ns then
          (entry.id, .error ⟨403, .text <|
            "token not permitted to " ++ method.verb ++ " namespace '" ++ ns ++ "'"⟩)
        else (entry.id, .ok ⟨entry.id, entry.namespaces.getD ∅⟩)

-- What a client comes with: the table of tokens and its own header.
structure Credentials where
  authTokens    : AuthTokens
  authorization : Option String

-- The request passes `get_auth_context`.
def Credentials.Allows (c : Credentials) (method : Method) (key : Key) : Prop :=
  (getAuthContext (α := Unit) (some c.authTokens) c.authorization method key).2.isOk

instance {c : Credentials} : Decidable (c.Allows method key) :=
  inferInstanceAs (Decidable (_ = true))

end DynamoKV
