import Veryl.Analyzer.FragmentCodec

/-!
Writing a fragment: what the dictionaries hold after a sequence of ids, which value
is written for an id, and when writing fails.
-/

namespace Veryl.Analyzer.FragmentCodec

open Veryl.Parser Veryl.Parser.FragmentCodec List Function
open EncodeSession (encodePath encodeStr)

variable {ids : List Id} {kind : Kind}

variable {rebase : IdRebase} {localId : ℕ} {what : String} {value id : ℕ} {order : List ℕ}

section Dictionaries

variable {T : Type}

/-- A dictionary holds the ids in the order of their first use. -/
structure Holds (table : GlobalTable T) (order : List ℕ) (dictionary : Dictionary T) :
    Prop where
  nodup : order.Nodup
  mem : ∀ id ∈ order, dictionary.map id = some (order.idxOf id % 2 ^ 32)
  absent : ∀ id, id ∉ order → dictionary.map id = none
  dict : dictionary.dict.map some = order.map table.getValue

/-- The order after one more id. -/
def use (order : List ℕ) (id : ℕ) : List ℕ := if id ∈ order then order else order ++ [id]

theorem use_extends (order : List ℕ) (id : ℕ) : order <+: use order id := by
  simp only [use]
  split
  · exact prefix_refl _
  · exact prefix_append _ _

theorem mem_use {id' : ℕ} : id' ∈ use order id ↔ id' ∈ order ∨ id' = id := by
  simp only [use]
  split
  · refine ⟨Or.inl, fun h => h.elim (fun h => h) fun h => h ▸ ‹_›⟩
  · simp

theorem idxOf_of_extends {order' : List ℕ} (h : order <+: order')
    (hid : id ∈ order) : order'.idxOf id = order.idxOf id := by
  obtain ⟨rest, rfl⟩ := h
  exact idxOf_append_of_mem hid

variable {table : GlobalTable T} {order : List ℕ} {dictionary : Dictionary T}

theorem holds_empty : Holds table [] (Dictionary.empty : Dictionary T) :=
  ⟨nodup_nil, by simp, fun _ _ => rfl, rfl⟩

section

variable (h : Holds table order dictionary)

include h

theorem Holds.length : dictionary.dict.length = order.length := by
  simpa using congrArg List.length h.dict

theorem Holds.encode (what : String) {value : T} (hvalue : table.getValue id = some value) :
    ∃ dictionary', dictionary.encode table what id =
        .ok ((use order id).idxOf id % 2 ^ 32, dictionary') ∧
      Holds table (use order id) dictionary' := by
  by_cases hid : id ∈ order
  · refine ⟨dictionary, ?_, ?_⟩
    · simp [Dictionary.encode, h.mem id hid, use, hid]
    · simpa [use, hid] using h
  · have hmap := h.absent id hid
    have hindex : (order ++ [id]).idxOf id = order.length := by
      simp [idxOf_append_of_notMem hid]
    simp only [Dictionary.encode, hmap, hvalue, h.length, use, hid, if_false, hindex]
    refine ⟨_, rfl, ?_, fun id' hmem => ?_, fun id' hmem => ?_, ?_⟩
    · refine nodup_append.2 ⟨h.nodup, nodup_singleton id, fun a ha b hb hab => hid ?_⟩
      rwa [← mem_singleton.1 hb, ← hab]
    · by_cases hne : id' = id
      · simp [hne, idxOf_append_of_notMem hid]
      · have hold : id' ∈ order := by simpa [hne] using hmem
        simp only [update_of_ne hne, h.mem id' hold, idxOf_append_of_mem hold]
    · have hne : id' ≠ id := fun heq => hmem (by simp [heq])
      simp only [update_of_ne hne]
      exact h.absent id' fun hold => hmem (by simp [hold])
    · simp [h.dict, hvalue]

theorem Holds.known (hid : id ∈ order) : ∃ value, table.getValue id = some value := by
  have hmem : table.getValue id ∈ dictionary.dict.map some :=
    h.dict ▸ mem_map_of_mem hid
  obtain ⟨value, -, hvalue⟩ := mem_map.1 hmem
  exact ⟨value, hvalue.symm⟩

theorem Holds.encode_unknown (what : String) (hvalue : table.getValue id = none) :
    ∃ error, dictionary.encode table what id = .error error := by
  have hid : id ∉ order := fun hmem => by
    obtain ⟨value, hsome⟩ := h.known hmem
    simp [hvalue] at hsome
  simp [Dictionary.encode, h.absent id hid, hvalue]

end

end Dictionaries

section Windows

variable {window : IdWindow} {id : ℕ}

theorem encode_of_contains (h : window.Contains id) (what : String) :
    window.encode id what = .ok (id - window.start - 1) := if_pos h

theorem encode_of_not_contains (h : ¬ window.Contains id) (what : String) :
    ∃ error, window.encode id what = .error error := ⟨_, if_neg h⟩

theorem encodeSentinel_zero (window : IdWindow) (what : String) :
    encodeSentinel window 0 what = .ok 0 := rfl

theorem encodeSentinel_of_contains (h : window.Contains id) (what : String) :
    encodeSentinel window id what = .ok (id - window.start) := by
  have hlt : window.start < id := h.1
  have hne : id ≠ 0 := by omega
  have hvalue : id - window.start - 1 + 1 = id - window.start := by omega
  simp [encodeSentinel, hne, encode_of_contains h, Except.map, hvalue]

theorem encodeSentinel_of_not_contains (hne : id ≠ 0) (h : ¬ window.Contains id)
    (what : String) : ∃ error, encodeSentinel window id what = .error error := by
  obtain ⟨error, herror⟩ := encode_of_not_contains h what
  exact ⟨error, by simp [encodeSentinel, hne, herror, Except.map]⟩

theorem decode_of_lt (h : localId < rebase.count)
    (what : String) : rebase.decode localId what = .ok (rebase.base + localId + 1) := by
  have hreserved := rebase.reserved
  rw [IdRebase.decode, if_pos h, Nat.mod_eq_of_lt (by omega)]

theorem decode_error_iff :
    (∃ error, rebase.decode localId what = .error error) ↔ rebase.count ≤ localId := by
  rw [IdRebase.decode]
  split
  · simp only [reduceCtorEq, exists_false, false_iff]
    omega
  · simp only [Except.error.injEq, exists_eq', true_iff]
    omega

theorem decodeSentinel_error_iff :
    (∃ error, decodeSentinel rebase value what = .error error) ↔ rebase.count < value := by
  rw [decodeSentinel]
  split
  · simp only [reduceCtorEq, exists_false, false_iff]
    omega
  · rw [decode_error_iff]
    omega

theorem lookup_error_iff {ids : List ℕ} :
    (∃ error, DecodeSession.lookup ids what localId = .error error) ↔ ids.length ≤ localId := by
  rw [DecodeSession.lookup]
  cases h : ids[localId]? with
  | none => simpa using List.getElem?_eq_none_iff.1 h
  | some id =>
    have hlt := (List.getElem?_eq_some_iff.1 h).1
    simpa using hlt

end Windows

/-- The tables and the windows of the process that writes a fragment. -/
structure Writer (PathBuf : Type) where
  tables : Tables PathBuf
  tokenWindow : IdWindow
  textWindow : IdWindow
  windows : Windows

variable {PathBuf : Type}

namespace Writer

def serializeAll (writer : Writer PathBuf) (ids : List Id) :
    Except String (List ℕ × EncodeSession PathBuf) :=
  FragmentCodec.serializeAll writer.tables writer.windows
    (.new writer.tokenWindow writer.textWindow) ids

/-- An unknown interned id, or a counter id outside its window. -/
def Rejects (writer : Writer PathBuf) (id : Id) : Prop :=
  match id.kind with
  | .strId => writer.tables.strings.getValue id.value = none
  | .pathId => writer.tables.paths.getValue id.value = none
  | .tokenId => ¬ writer.tokenWindow.Contains id.value
  | .textId => ¬ writer.textWindow.Contains id.value
  | .symbolId => id.value ≠ 0 ∧ ¬ writer.windows.symbolWindow.Contains id.value
  | .definitionId => id.value ≠ 0 ∧ ¬ writer.windows.definitionWindow.Contains id.value

/-- The orders of first use of the strings and of the paths. -/
structure Uses where
  strs : List ℕ
  paths : List ℕ

variable {uses : Uses}

def Uses.add (uses : Uses) (id : Id) : Uses :=
  match id.kind with
  | .strId => { uses with strs := use uses.strs id.value }
  | .pathId => { uses with paths := use uses.paths id.value }
  | _ => uses

structure SessionHolds (writer : Writer PathBuf) (uses : Uses)
    (session : EncodeSession PathBuf) : Prop where
  strs : Holds writer.tables.strings uses.strs session.strs
  paths : Holds writer.tables.paths uses.paths session.paths
  tokenWindow : session.tokenWindow = writer.tokenWindow
  textWindow : session.textWindow = writer.textWindow

/-- The value that is written for an id. -/
def Encoded (writer : Writer PathBuf) (uses : Uses) (id : Id) (value : ℕ) : Prop :=
  match id.kind with
  | .strId => id.value ∈ uses.strs ∧ value = uses.strs.idxOf id.value % 2 ^ 32
  | .pathId => id.value ∈ uses.paths ∧ value = uses.paths.idxOf id.value % 2 ^ 32
  | .tokenId => writer.tokenWindow.Contains id.value ∧
      value = id.value - writer.tokenWindow.start - 1
  | .textId => writer.textWindow.Contains id.value ∧
      value = id.value - writer.textWindow.start - 1
  | .symbolId => id.value = 0 ∧ value = 0 ∨ writer.windows.symbolWindow.Contains id.value ∧
      value = id.value - writer.windows.symbolWindow.start
  | .definitionId => id.value = 0 ∧ value = 0 ∨
      writer.windows.definitionWindow.Contains id.value ∧
        value = id.value - writer.windows.definitionWindow.start

section Sequences

variable {writer : Writer PathBuf} {uses : Uses} {session : EncodeSession PathBuf}

theorem sentinel_spec {window : IdWindow} (h : ¬ (id ≠ 0 ∧ ¬ window.Contains id))
    (what : String) : ∃ value, encodeSentinel window id what = .ok value ∧
      (id = 0 ∧ value = 0 ∨ window.Contains id ∧ value = id - window.start) := by
  by_cases hzero : id = 0
  · exact ⟨0, by rw [hzero, encodeSentinel_zero], Or.inl ⟨hzero, rfl⟩⟩
  · have hcontains : window.Contains id := by
      by_contra hnot
      exact h ⟨hzero, hnot⟩
    exact ⟨_, encodeSentinel_of_contains hcontains what, Or.inr ⟨hcontains, rfl⟩⟩

variable {id : Id}

theorem Encoded.mono {uses' : Uses}
    (h : Encoded writer uses id value) (hstrs : uses.strs <+: uses'.strs)
    (hpaths : uses.paths <+: uses'.paths) : Encoded writer uses' id value := by
  obtain ⟨kind, id⟩ := id
  cases kind with
  | strId =>
    exact ⟨hstrs.subset h.1, h.2.trans (by rw [idxOf_of_extends hstrs h.1])⟩
  | pathId =>
    exact ⟨hpaths.subset h.1, h.2.trans (by rw [idxOf_of_extends hpaths h.1])⟩
  | tokenId => exact h
  | textId => exact h
  | symbolId => exact h
  | definitionId => exact h

theorem add_strs_extends (uses : Uses) (id : Id) : uses.strs <+: (uses.add id).strs := by
  obtain ⟨kind, id⟩ := id
  cases kind with
  | strId => exact use_extends _ _
  | _ => exact prefix_refl _

theorem add_paths_extends (uses : Uses) (id : Id) : uses.paths <+: (uses.add id).paths := by
  obtain ⟨kind, id⟩ := id
  cases kind with
  | pathId => exact use_extends _ _
  | _ => exact prefix_refl _

theorem foldl_add_extends (uses : Uses) (ids : List Id) :
    uses.strs <+: (ids.foldl Uses.add uses).strs ∧
      uses.paths <+: (ids.foldl Uses.add uses).paths := by
  induction ids generalizing uses with
  | nil => exact ⟨prefix_refl _, prefix_refl _⟩
  | cons id ids ih =>
    obtain ⟨hstrs, hpaths⟩ := ih (uses.add id)
    exact ⟨(add_strs_extends uses id).trans hstrs, (add_paths_extends uses id).trans hpaths⟩

section

variable (h : SessionHolds writer uses session)

include h

theorem SessionHolds.serialize (hid : ¬ writer.Rejects id) : ∃ value session',
      FragmentCodec.serialize writer.tables writer.windows session id = .ok (value, session') ∧
      SessionHolds writer (uses.add id) session' ∧ Encoded writer (uses.add id) id value := by
  obtain ⟨kind, id⟩ := id
  cases kind with
  | strId =>
    obtain ⟨value, hvalue⟩ := Option.ne_none_iff_exists'.1 hid
    obtain ⟨strs, hstrs, hholds⟩ := h.strs.encode "StrId" hvalue
    refine ⟨_, { session with strs := strs }, ?_, ⟨hholds, h.paths, h.tokenWindow,
      h.textWindow⟩, mem_use.2 (Or.inr rfl), rfl⟩
    simp only [FragmentCodec.serialize, encodeStr, hstrs]
    rfl
  | pathId =>
    obtain ⟨value, hvalue⟩ := Option.ne_none_iff_exists'.1 hid
    obtain ⟨paths, hpaths, hholds⟩ := h.paths.encode "PathId" hvalue
    refine ⟨_, { session with paths := paths }, ?_, ⟨h.strs, hholds, h.tokenWindow,
      h.textWindow⟩, mem_use.2 (Or.inr rfl), rfl⟩
    simp only [FragmentCodec.serialize, encodePath, hpaths]
    rfl
  | tokenId =>
    have hcontains : writer.tokenWindow.Contains id := not_not.1 hid
    refine ⟨_, session, ?_, h, hcontains, rfl⟩
    simp only [FragmentCodec.serialize, h.tokenWindow, encode_of_contains hcontains]
    rfl
  | textId =>
    have hcontains : writer.textWindow.Contains id := not_not.1 hid
    refine ⟨_, session, ?_, h, hcontains, rfl⟩
    simp only [FragmentCodec.serialize, h.textWindow, encode_of_contains hcontains]
    rfl
  | symbolId =>
    obtain ⟨value, hvalue, hencoded⟩ := sentinel_spec hid "SymbolId"
    refine ⟨value, session, ?_, h, hencoded⟩
    simp only [FragmentCodec.serialize, hvalue]
    rfl
  | definitionId =>
    obtain ⟨value, hvalue, hencoded⟩ := sentinel_spec hid "DefinitionId"
    refine ⟨value, session, ?_, h, hencoded⟩
    simp only [FragmentCodec.serialize, hvalue]
    rfl

theorem SessionHolds.serialize_error (hid : writer.Rejects id) :
    ∃ error, FragmentCodec.serialize writer.tables writer.windows session id = .error error := by
  obtain ⟨kind, id⟩ := id
  cases kind with
  | strId =>
    obtain ⟨error, herror⟩ := h.strs.encode_unknown "StrId" hid
    refine ⟨error, ?_⟩
    simp only [FragmentCodec.serialize, encodeStr, herror]
    rfl
  | pathId =>
    obtain ⟨error, herror⟩ := h.paths.encode_unknown "PathId" hid
    refine ⟨error, ?_⟩
    simp only [FragmentCodec.serialize, encodePath, herror]
    rfl
  | tokenId =>
    obtain ⟨error, herror⟩ := encode_of_not_contains hid "TokenId"
    refine ⟨error, ?_⟩
    simp only [FragmentCodec.serialize, h.tokenWindow, herror]
    rfl
  | textId =>
    obtain ⟨error, herror⟩ := encode_of_not_contains hid "TextId"
    refine ⟨error, ?_⟩
    simp only [FragmentCodec.serialize, h.textWindow, herror]
    rfl
  | symbolId =>
    obtain ⟨error, herror⟩ := encodeSentinel_of_not_contains hid.1 hid.2 "SymbolId"
    refine ⟨error, ?_⟩
    simp only [FragmentCodec.serialize, herror]
    rfl
  | definitionId =>
    obtain ⟨error, herror⟩ := encodeSentinel_of_not_contains hid.1 hid.2 "DefinitionId"
    refine ⟨error, ?_⟩
    simp only [FragmentCodec.serialize, herror]
    rfl

theorem SessionHolds.serializeAll (hids : ∀ id ∈ ids, ¬ writer.Rejects id) : ∃ values session',
      FragmentCodec.serializeAll writer.tables writer.windows session ids = .ok (values, session') ∧
      SessionHolds writer (ids.foldl Uses.add uses) session' ∧
      List.Forall₂ (Encoded writer (ids.foldl Uses.add uses)) ids values := by
  induction ids generalizing uses session with
  | nil => exact ⟨[], session, rfl, h, List.Forall₂.nil⟩
  | cons id ids ih =>
    obtain ⟨value, session₁, hvalue, h₁, hencoded⟩ := h.serialize (hids id (by simp))
    obtain ⟨values, session₂, hvalues, h₂, hall⟩ :=
      ih h₁ fun id' hid' => hids id' (by simp [hid'])
    refine ⟨value :: values, session₂, ?_, h₂, List.Forall₂.cons ?_ hall⟩
    · simp only [FragmentCodec.serializeAll, hvalue, hvalues, bind, Except.bind]
    · obtain ⟨hstrs, hpaths⟩ := foldl_add_extends (uses.add id) ids
      exact hencoded.mono hstrs hpaths

theorem SessionHolds.serializeAll_error (hids : ∃ id ∈ ids, writer.Rejects id) :
    ∃ error, FragmentCodec.serializeAll writer.tables writer.windows session ids =
      .error error := by
  induction ids generalizing uses session with
  | nil => simp at hids
  | cons id ids ih =>
    by_cases hid : writer.Rejects id
    · obtain ⟨error, herror⟩ := h.serialize_error hid
      exact ⟨error, by simp only [FragmentCodec.serializeAll, herror, bind, Except.bind]⟩
    · obtain ⟨value, session₁, hvalue, h₁, -⟩ := h.serialize hid
      obtain ⟨id', hmem, hrejects⟩ := hids
      have htail : id' ∈ ids := by
        rcases mem_cons.1 hmem with rfl | htail
        · exact absurd hrejects hid
        · exact htail
      obtain ⟨error, herror⟩ := ih h₁ ⟨id', htail, hrejects⟩
      exact ⟨error, by
        simp only [FragmentCodec.serializeAll, hvalue, herror, bind, Except.bind]⟩

end

theorem sessionHolds_new (writer : Writer PathBuf) :
    SessionHolds writer ⟨[], []⟩ (.new writer.tokenWindow writer.textWindow) :=
  ⟨holds_empty, holds_empty, rfl, rfl⟩

theorem serializeAll_error_iff (writer : Writer PathBuf) (ids : List Id) :
    (∃ error, writer.serializeAll ids = .error error) ↔ ∃ id ∈ ids, writer.Rejects id := by
  refine ⟨?_, fun h => (sessionHolds_new writer).serializeAll_error h⟩
  rintro ⟨error, herror⟩
  by_contra hnone
  obtain ⟨values, session, hvalues, -⟩ := (sessionHolds_new writer).serializeAll
    fun id hid hrejects => hnone ⟨id, hid, hrejects⟩
  rw [Writer.serializeAll, hvalues] at herror
  cases herror

end Sequences

/-- The ids of a kind. -/
def distinct (kind : Kind) (ids : List Id) : Finset ℕ :=
  ((ids.filter (·.kind = kind)).map (·.value)).toFinset

theorem mem_distinct : value ∈ distinct kind ids ↔ ⟨kind, value⟩ ∈ ids := by
  simp only [distinct, mem_toFinset, mem_map, mem_filter, decide_eq_true_eq]
  refine ⟨?_, fun h => ⟨_, ⟨h, rfl⟩, rfl⟩⟩
  rintro ⟨⟨_, _⟩, ⟨hmem, rfl⟩, rfl⟩
  exact hmem

theorem mem_foldl_strs :
    value ∈ (ids.foldl Uses.add uses).strs ↔ value ∈ uses.strs ∨ ⟨.strId, value⟩ ∈ ids := by
  induction ids generalizing uses with
  | nil => simp
  | cons id ids ih =>
    obtain ⟨kind, id⟩ := id
    rw [foldl_cons, ih]
    cases kind <;> simp [Uses.add, mem_use, or_assoc]

theorem mem_foldl_paths : value ∈ (ids.foldl Uses.add uses).paths ↔
      value ∈ uses.paths ∨ ⟨.pathId, value⟩ ∈ ids := by
  induction ids generalizing uses with
  | nil => simp
  | cons id ids ih =>
    obtain ⟨kind, id⟩ := id
    rw [foldl_cons, ih]
    cases kind <;> simp [Uses.add, mem_use, or_assoc]

theorem length_eq_card (h : order.Nodup) (hmem : ∀ value, value ∈ order ↔ ⟨kind, value⟩ ∈ ids) :
    order.length = (distinct kind ids).card := by
  rw [← toFinset_card_of_nodup h]
  congr 1
  ext value
  rw [mem_toFinset, hmem, mem_distinct]

end Writer

end Veryl.Analyzer.FragmentCodec
