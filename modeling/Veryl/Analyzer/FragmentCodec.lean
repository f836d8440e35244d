import Veryl.Parser.FragmentCodec

/-!
The ids of symbols and definitions in a serialized fragment. Zero stands for a reference that a
later pass fills in and is kept.
-/

namespace Veryl.Analyzer.FragmentCodec

open Veryl.Parser.FragmentCodec

variable {PathBuf : Type}

/-- The analyzer's windows. -/
structure Windows where
  symbolWindow : IdWindow
  definitionWindow : IdWindow

/-- The analyzer's reserved ranges. -/
structure Rebases where
  symbolRebase : IdRebase
  definitionRebase : IdRebase

def encodeSentinel (window : IdWindow) (id : ℕ) (what : String) : Except String ℕ :=
  if id = 0 then .ok 0 else (window.encode id what).map (· + 1)

def decodeSentinel (rebase : IdRebase) (value : ℕ) (what : String) : Except String ℕ :=
  if value = 0 then .ok 0 else rebase.decode (value - 1) what

inductive Kind where
  | strId
  | pathId
  | tokenId
  | textId
  | symbolId
  | definitionId
  deriving DecidableEq

/-- An id of one of the six types. -/
structure Id where
  kind : Kind
  value : ℕ
  deriving DecidableEq

def serialize (tables : Tables PathBuf) (windows : Windows)
    (session : EncodeSession PathBuf) (id : Id) :
    Except String (ℕ × EncodeSession PathBuf) :=
  match id.kind with
  | .strId => session.encodeStr tables id.value
  | .pathId => session.encodePath tables id.value
  | .tokenId => (session.tokenWindow.encode id.value "TokenId").map (·, session)
  | .textId => (session.textWindow.encode id.value "TextId").map (·, session)
  | .symbolId => (encodeSentinel windows.symbolWindow id.value "SymbolId").map (·, session)
  | .definitionId =>
    (encodeSentinel windows.definitionWindow id.value "DefinitionId").map (·, session)

/-- The ids of a fragment in the order in which they are written. -/
def serializeAll (tables : Tables PathBuf) (windows : Windows)
    (session : EncodeSession PathBuf) : List Id → Except String (List ℕ × EncodeSession PathBuf)
  | [] => .ok ([], session)
  | id :: ids => do
    let (value, session) ← serialize tables windows session id
    let (values, session) ← serializeAll tables windows session ids
    .ok (value :: values, session)

def deserialize (rebases : Rebases) (session : DecodeSession) (kind : Kind) (value : ℕ) :
    Except String Id :=
  (match kind with
    | .strId => session.decodeStr value
    | .pathId => session.decodePath value
    | .tokenId => session.tokenRebase.decode value "TokenId"
    | .textId => session.textRebase.decode value "TextId"
    | .symbolId => decodeSentinel rebases.symbolRebase value "SymbolId"
    | .definitionId => decodeSentinel rebases.definitionRebase value "DefinitionId").map
    (Id.mk kind)

/-- Reading is directed by the types of the ids. -/
def deserializeAll (rebases : Rebases) (session : DecodeSession) :
    List Kind → List ℕ → Except String (List Id)
  | kind :: kinds, value :: values => do
    let id ← deserialize rebases session kind value
    let ids ← deserializeAll rebases session kinds values
    .ok (id :: ids)
  | _, _ => .ok []

end Veryl.Analyzer.FragmentCodec
