import Veryl.Parser.ResourceTable

/-!
Serialized fragments of an analysis hold local ids. A counter id is stored as its
offset in the window of the file and is rebased on decoding; an interned id is
stored as an index of a dictionary, which is interned again on decoding.
-/

namespace Veryl.Parser.FragmentCodec

/-- The half-open window of the ids above `start` and up to `stop`, two values of a
counter. -/
structure IdWindow where
  start : ℕ
  stop : ℕ
  bounded : stop < 2 ^ 64

namespace IdWindow

def count (window : IdWindow) : ℕ := window.stop - window.start

def Contains (window : IdWindow) (id : ℕ) : Prop := window.start < id ∧ id ≤ window.stop

instance (window : IdWindow) (id : ℕ) : Decidable (window.Contains id) :=
  inferInstanceAs (Decidable (_ ∧ _))

def encode (window : IdWindow) (id : ℕ) (what : String) : Except String ℕ :=
  if window.start < id ∧ id ≤ window.stop then .ok (id - window.start - 1)
  else .error ("fragment codec: " ++ what ++ " " ++ toString id ++ " outside window (" ++
    toString window.start ++ ", " ++ toString window.stop ++ "]")

end IdWindow

/-- A range of ids that was reserved: the counter has passed all of them. -/
structure IdRebase where
  base : ℕ
  count : ℕ
  reserved : base + count < 2 ^ 64

def IdRebase.decode (rebase : IdRebase) (localId : ℕ) (what : String) : Except String ℕ :=
  if localId < rebase.count then .ok ((rebase.base + localId + 1) % 2 ^ 64)
  else .error ("fragment codec: " ++ what ++ " local id " ++ toString localId ++
    " out of range (count " ++ toString rebase.count ++ ")")

/-- The interned ids met so far with their u32 indices, and the values to store. -/
structure Dictionary (T : Type) where
  map : ℕ → Option ℕ
  dict : List T

namespace Dictionary

variable {T : Type}

def empty : Dictionary T where
  map := fun _ => none
  dict := []

def encode (table : GlobalTable T) (what : String) (dictionary : Dictionary T) (id : ℕ) :
    Except String (ℕ × Dictionary T) :=
  match dictionary.map id with
  | some x => .ok (x, dictionary)
  | none =>
    match table.getValue id with
    | none => .error ("fragment codec: unknown " ++ what ++ " " ++ toString id)
    | some value =>
      let localId := dictionary.dict.length % 2 ^ 32
      .ok (localId,
        { map := Function.update dictionary.map id (some localId)
          dict := dictionary.dict ++ [value] })

end Dictionary

/-- The live tables of a process. -/
structure Tables (PathBuf : Type) where
  strings : GlobalTable String
  paths : GlobalTable PathBuf

variable {PathBuf : Type}

structure EncodeSession (PathBuf : Type) where
  strs : Dictionary String
  paths : Dictionary PathBuf
  tokenWindow : IdWindow
  textWindow : IdWindow

namespace EncodeSession

def new (tokenWindow textWindow : IdWindow) : EncodeSession PathBuf where
  strs := .empty
  paths := .empty
  tokenWindow := tokenWindow
  textWindow := textWindow

def encodeStr (tables : Tables PathBuf) (session : EncodeSession PathBuf) (id : ℕ) :
    Except String (ℕ × EncodeSession PathBuf) := do
  let (localId, strs) ← session.strs.encode tables.strings "StrId" id
  .ok (localId, { session with strs })

def encodePath (tables : Tables PathBuf) (session : EncodeSession PathBuf) (id : ℕ) :
    Except String (ℕ × EncodeSession PathBuf) := do
  let (localId, paths) ← session.paths.encode tables.paths "PathId" id
  .ok (localId, { session with paths })

end EncodeSession

structure DecodeSession where
  strs : List ℕ
  paths : List ℕ
  tokenRebase : IdRebase
  textRebase : IdRebase

namespace DecodeSession

/-- Interns the dictionaries into the live tables. -/
def new [DecidableEq PathBuf] (tables : Tables PathBuf) (strings : List String)
    (paths : List PathBuf) (tokenRebase textRebase : IdRebase) :
    DecodeSession × Tables PathBuf :=
  let (strs, stringTable) := tables.strings.insertAll strings
  let (paths, pathTable) := tables.paths.insertAll paths
  ({ strs, paths, tokenRebase, textRebase }, { strings := stringTable, paths := pathTable })

def lookup (ids : List ℕ) (what : String) (localId : ℕ) : Except String ℕ :=
  match ids[localId]? with
  | some id => .ok id
  | none => .error ("fragment codec: " ++ what ++ " index " ++ toString localId ++
      " out of dictionary")

def decodeStr (session : DecodeSession) (localId : ℕ) : Except String ℕ :=
  lookup session.strs "StrId" localId

def decodePath (session : DecodeSession) (localId : ℕ) : Except String ℕ :=
  lookup session.paths "PathId" localId

end DecodeSession

end Veryl.Parser.FragmentCodec
