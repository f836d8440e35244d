import Veryl.Library.UndoLog

/-!
The bindings of a store of versions and their transactions.
-/

namespace Veryl.Analyzer.CombLoopDetect.Ssa

open Veryl.Library

abbrev VersionId := ℕ

/-- The value of a key at its entry, one of several versions, or a value that bindings do not
look into. -/
inductive Version (K : Type) where
  | entry (key : K)
  | phi (inputs : List VersionId)
  | computed

structure Checkpoint where
  undoStart : ℕ
  depth : ℕ

structure BranchState (K : Type) where
  bindings : K → Option VersionId

structure SsaStore (K : Type) where
  versions : List (Version K)
  entries : K → Option VersionId
  current : K → Option VersionId
  undo : List (Undo K VersionId)
  checkpoints : List ℕ

namespace SsaStore

variable {K : Type}

def empty : SsaStore K := ⟨[], fun _ => none, fun _ => none, [], []⟩

def pushVersion (s : SsaStore K) (version : Version K) : SsaStore K :=
  { s with versions := s.versions ++ [version] }

/-- The version that stands for all of the inputs. -/
def phi (s : SsaStore K) (inputs : List VersionId) : VersionId × SsaStore K :=
  match (inputs.insertionSort (· ≤ ·)).dedup with
  | [version] => (version, s)
  | inputs => (s.versions.length, s.pushVersion (.phi inputs))

variable [DecidableEq K]

/-- The version of the key at its entry, made by the first call. -/
def entry (s : SsaStore K) (key : K) : VersionId × SsaStore K :=
  match s.entries key with
  | some version => (version, s)
  | none =>
    let version := s.versions.length
    (version, { s.pushVersion (.entry key) with
      entries := Function.update s.entries key (some version) })

def read (s : SsaStore K) (key : K) : VersionId × SsaStore K :=
  match s.current key with
  | some version => (version, s)
  | none => s.entry key

def bind (s : SsaStore K) (key : K) (version : VersionId) : SsaStore K :=
  let previous := s.current key
  { s with
    current := Function.update s.current key (some version)
    undo := if s.checkpoints ≠ [] then s.undo ++ [⟨key, previous⟩] else s.undo }

def weakBind (s : SsaStore K) (key : K) (version : VersionId) : SsaStore K :=
  let (previous, s) := s.read key
  let (version, s) := s.phi [previous, version]
  s.bind key version

omit [DecidableEq K] in
def checkpoint (s : SsaStore K) : Checkpoint × SsaStore K :=
  let checkpoint := ⟨s.undo.length, s.checkpoints.length⟩
  (checkpoint, { s with checkpoints := s.checkpoints ++ [checkpoint.undoStart] })

/-- The keys that were bound since the start of a transaction, each with its version. -/
def boundSince (s : SsaStore K) (start : ℕ) : K → Option VersionId :=
  fun key => if key ∈ (s.undo.drop start).map (·.key) then s.current key else none

/-- What was bound since the checkpoint, and the store without it; `none` is a checkpoint out of
turn or a branch binding that is not there, where the source panics. -/
def captureAndRollback (s : SsaStore K) (checkpoint : Checkpoint) :
    Option (BranchState K × SsaStore K) :=
  if checkpoint.depth + 1 = s.checkpoints.length ∧
      s.checkpoints.getLast? = some checkpoint.undoStart then
    if (s.undo.drop checkpoint.undoStart).all fun u => (s.current u.key).isSome then
      let bindings := s.boundSince checkpoint.undoStart
      let current := undoAll (s.undo.drop checkpoint.undoStart) s.current
      some (⟨fun key => (bindings key).filter fun version => current key ≠ some version⟩,
        { s with
          current := current
          undo := s.undo.take checkpoint.undoStart
          checkpoints := s.checkpoints.dropLast })
    else none
  else none

/-- What was bound since an enclosing checkpoint; `none` is a checkpoint that is not open. -/
def snapshotSince (s : SsaStore K) (checkpoint : Checkpoint) : Option (BranchState K) :=
  if s.checkpoints[checkpoint.depth]? = some checkpoint.undoStart then
    some ⟨s.boundSince checkpoint.undoStart⟩
  else none

/-- Binds one key to its versions in the states that have one, and to its version before them
when some state has none. -/
def mergeKey (states : List (BranchState K)) (s : SsaStore K) (key : K) : SsaStore K :=
  let inputs := states.filterMap (·.bindings key)
  let (fallback, s) := s.read key
  let (version, s) := s.phi (if inputs.length < states.length then inputs ++ [fallback] else inputs)
  s.bind key version

/-- Merges the states, one key after the other. -/
def merge (s : SsaStore K) (states : List (BranchState K)) (order : List K) : SsaStore K :=
  order.foldl (mergeKey states) s

end SsaStore

/-- States with the keys that they bind, in the order in which a hash map lists them. -/
structure Merging (K : Type) where
  states : List (BranchState K)
  order : List K
  nodup : order.Nodup
  mem_order : ∀ key, key ∈ order ↔ ∃ state ∈ states, ∃ version, state.bindings key = some version

/-- The operations on a store. Checkpoints are closed by their callers, the latest first;
`snapshotSince n` looks back to the checkpoint that is `n` further out. -/
inductive Op (K : Type) where
  | read (key : K)
  | pushVersion (version : Version K)
  | bind (key : K) (version : VersionId)
  | weakBind (key : K) (version : VersionId)
  | checkpoint
  | captureAndRollback
  | snapshotSince (n : ℕ)
  | merge (merging : Merging K)

/-- A store with the checkpoints that are open, the latest first, and the bindings of their
time. -/
structure Session (K : Type) where
  store : SsaStore K
  opened : List (Checkpoint × (K → Option VersionId))

namespace Session

variable {K : Type} [DecidableEq K]

omit [DecidableEq K] in
def start : Session K := ⟨.empty, []⟩

/-- `none` is a rollback or a snapshot without its checkpoint, or a panic of the store. -/
def step (σ : Session K) : Op K → Option (Session K)
  | .read key => some { σ with store := (σ.store.read key).2 }
  | .pushVersion version => some { σ with store := σ.store.pushVersion version }
  | .bind key version => some { σ with store := σ.store.bind key version }
  | .weakBind key version => some { σ with store := σ.store.weakBind key version }
  | .checkpoint =>
    some ⟨σ.store.checkpoint.2, (σ.store.checkpoint.1, σ.store.current) :: σ.opened⟩
  | .captureAndRollback =>
    match σ.opened with
    | [] => none
    | (checkpoint, _) :: rest =>
      (σ.store.captureAndRollback checkpoint).map fun r => ⟨r.2, rest⟩
  | .snapshotSince n =>
    match σ.opened[n]? with
    | none => none
    | some (checkpoint, _) => (σ.store.snapshotSince checkpoint).map fun _ => σ
  | .merge merging => some { σ with store := σ.store.merge merging.states merging.order }

def run (σ : Session K) (ops : List (Op K)) : Option (Session K) := ops.foldlM step σ

end Session

end Veryl.Analyzer.CombLoopDetect.Ssa
