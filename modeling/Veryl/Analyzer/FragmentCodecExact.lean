import Veryl.Analyzer.FragmentCodecWriter

/-!
A fragment is written unless it names an unknown interned id or a counter id from
outside its window, and what was written reads back as the same ids, moved to the
reserved ranges, as long as the indices of the dictionaries fit in 32 bits.
-/

namespace Veryl.Analyzer.FragmentCodec

open Veryl.Parser Veryl.Parser.FragmentCodec List Option Nat Prod Writer GlobalTable

variable {a a' b b' : ℕ}

variable {T α β : Type} {table : GlobalTable T} {rebase : IdRebase}

variable {PathBuf : Type} {window : IdWindow} {ids : List Id} {after : GlobalTable T}
  {values : List ℕ} {result : Except String α} {f : α → β} {id : ℕ}

/-- The process that reads a fragment: its tables, and ranges that were reserved
with the counts of the writer's windows. -/
structure Reader (writer : Writer PathBuf) where
  tables : Tables PathBuf
  tokenRebase : IdRebase
  textRebase : IdRebase
  rebases : Rebases
  token_count : tokenRebase.count = writer.tokenWindow.count
  text_count : textRebase.count = writer.textWindow.count
  symbol_count : rebases.symbolRebase.count = writer.windows.symbolWindow.count
  definition_count : rebases.definitionRebase.count = writer.windows.definitionWindow.count

/-- The id at the same place of the reserved range. -/
def Shifted (window : IdWindow) (rebase : IdRebase) (id id' : ℕ) : Prop :=
  id' + window.start = id + rebase.base ∧ rebase.base < id' ∧ id' ≤ rebase.base + rebase.count

/-- Two ids of different tables that name the same value. -/
def SameValue {T : Type} (table table' : GlobalTable T) (id id' : ℕ) : Prop :=
  ∃ value, table.getValue id = some value ∧ table'.getValue id' = some value

namespace Reader

variable {writer : Writer PathBuf} [DecidableEq PathBuf]

/-- The decode session, and the tables with the dictionaries interned. -/
def start (reader : Reader writer) (session : EncodeSession PathBuf) :
    DecodeSession × Tables PathBuf :=
  DecodeSession.new reader.tables session.strs.dict session.paths.dict reader.tokenRebase
    reader.textRebase

/-- What an id is read back as. -/
def Restored (reader : Reader writer) (after : Tables PathBuf) (id id' : Id) : Prop :=
  id'.kind = id.kind ∧
    match id.kind with
    | .strId => SameValue writer.tables.strings after.strings id.value id'.value
    | .pathId => SameValue writer.tables.paths after.paths id.value id'.value
    | .tokenId => Shifted writer.tokenWindow reader.tokenRebase id.value id'.value
    | .textId => Shifted writer.textWindow reader.textRebase id.value id'.value
    | .symbolId => id.value = 0 ∧ id'.value = 0 ∨
        Shifted writer.windows.symbolWindow reader.rebases.symbolRebase id.value id'.value
    | .definitionId => id.value = 0 ∧ id'.value = 0 ∨
        Shifted writer.windows.definitionWindow reader.rebases.definitionRebase id.value id'.value

/-- The first value that is not a local id of the kind; zero is the sentinel of the
last two. -/
def limit (writer : Writer PathBuf) (session : EncodeSession PathBuf) : Kind → ℕ
  | .strId => session.strs.dict.length
  | .pathId => session.paths.dict.length
  | .tokenId => writer.tokenWindow.count
  | .textId => writer.textWindow.count
  | .symbolId => writer.windows.symbolWindow.count + 1
  | .definitionId => writer.windows.definitionWindow.count + 1

/-- The fragment reads back position by position, equal ids exactly for equal ids
and counter ids in the same order, and any other local id is an error. -/
structure Restores (reader : Reader writer) (session : EncodeSession PathBuf)
    (ids : List Id) (values : List ℕ) : Prop where
  decoded : ∃ ids', deserializeAll reader.rebases (reader.start session).1
      (ids.map (·.kind)) values = .ok ids' ∧
    List.Forall₂ (reader.Restored (reader.start session).2) ids ids' ∧
    ∀ a a' b b', (a, a') ∈ ids.zip ids' → (b, b') ∈ ids.zip ids' → a.kind = b.kind →
      (a'.value = b'.value ↔ a.value = b.value) ∧
      (a.kind ≠ .strId → a.kind ≠ .pathId → (a'.value < b'.value ↔ a.value < b.value))
  beyond : ∀ kind value, (∃ error, deserialize reader.rebases (reader.start session).1 kind value =
      .error error) ↔ limit writer session kind ≤ value

end Reader

/-- Writing fails exactly on a rejected id, and what is written can be read back in
any process. -/
def Faithful [DecidableEq PathBuf] (writer : Writer PathBuf) (ids : List Id) : Prop :=
  ((∃ error, writer.serializeAll ids = .error error) ↔ ∃ id ∈ ids, writer.Rejects id) ∧
    ∀ values session, writer.serializeAll ids = .ok (values, session) →
      ∀ reader : Reader writer, reader.Restores session ids values

section Reading

variable [DecidableEq PathBuf] {writer : Writer PathBuf} {reader : Reader writer}
  {uses : Writer.Uses} {session : EncodeSession PathBuf}

variable (reader) in
theorem start_strs (h : writer.SessionHolds uses session) :
    (reader.start session).1.strs.map (reader.start session).2.strings.getValue =
      uses.strs.map writer.tables.strings.getValue :=
  (insertAll_spec _ _).trans h.strs.dict

variable (reader) in
theorem start_paths (h : writer.SessionHolds uses session) :
    (reader.start session).1.paths.map (reader.start session).2.paths.getValue =
      uses.paths.map writer.tables.paths.getValue :=
  (insertAll_spec _ _).trans h.paths.dict

theorem lookup_spec {order ids : List ℕ} {i : ℕ}
    (h : ids.map after.getValue = order.map table.getValue) (hi : i < order.length)
    (what : String) :
    ∃ id', DecodeSession.lookup ids what i = .ok id' ∧
      after.getValue id' = table.getValue order[i] := by
  have hlen : ids.length = order.length := by simpa using congrArg List.length h
  have hids : i < ids.length := by omega
  refine ⟨ids[i], by simp [DecodeSession.lookup, hids], ?_⟩
  have hget := congrArg (·[i]?) h
  simpa [hids, hi] using hget

theorem lookup_idxOf {order ids : List ℕ}
    {value : T} (h : ids.map after.getValue = order.map table.getValue)
    (hlen : order.length ≤ 2 ^ 32) (hid : id ∈ order) (hvalue : table.getValue id = some value)
    (what : String) :
    ∃ id', DecodeSession.lookup ids what (order.idxOf id % 2 ^ 32) = .ok id' ∧
      SameValue table after id id' := by
  have hlt : order.idxOf id < order.length := idxOf_lt_length_of_mem hid
  rw [mod_eq_of_lt (by omega)]
  obtain ⟨id', hlookup, hsame⟩ := lookup_spec h hlt what
  rw [getElem_idxOf, hvalue] at hsame
  exact ⟨id', hlookup, value, hvalue, hsame⟩

theorem shifted_decode
    (hcount : rebase.count = window.count) (h : window.Contains id) (what : String) :
    ∃ id', rebase.decode (id - window.start - 1) what = .ok id' ∧ Shifted window rebase id id' := by
  obtain ⟨hstart, hstop⟩ := h
  rw [IdWindow.count] at hcount
  refine ⟨_, decode_of_lt (by omega) what, ?_, ?_, ?_⟩ <;> omega

theorem shifted_decodeSentinel (hcount : rebase.count = window.count) {value : ℕ}
    (h : id = 0 ∧ value = 0 ∨ window.Contains id ∧ value = id - window.start)
    (what : String) :
    ∃ id', decodeSentinel rebase value what = .ok id' ∧
      (id = 0 ∧ id' = 0 ∨ Shifted window rebase id id') := by
  rcases h with ⟨rfl, rfl⟩ | ⟨hcontains, rfl⟩
  · exact ⟨0, rfl, Or.inl ⟨rfl, rfl⟩⟩
  · have hstart : window.start < id := hcontains.1
    have hne : id - window.start ≠ 0 := by omega
    obtain ⟨id', hdecode, hshifted⟩ := shifted_decode hcount hcontains what
    exact ⟨id', by rw [decodeSentinel, if_neg hne, hdecode], Or.inr hshifted⟩

variable (reader) in
theorem deserialize_spec (h : writer.SessionHolds uses session)
    (hstrs : uses.strs.length ≤ 2 ^ 32) (hpaths : uses.paths.length ≤ 2 ^ 32) {id : Id}
    {value : ℕ} (hencoded : writer.Encoded uses id value) :
    ∃ id', deserialize reader.rebases (reader.start session).1 id.kind value = .ok id' ∧
      reader.Restored (reader.start session).2 id id' := by
  obtain ⟨kind, id⟩ := id
  cases kind with
  | strId =>
    obtain ⟨hid, rfl⟩ := hencoded
    obtain ⟨value, hvalue⟩ := h.strs.known hid
    obtain ⟨id', hid', hsame⟩ := lookup_idxOf (start_strs reader h) hstrs hid hvalue "StrId"
    exact ⟨⟨.strId, id'⟩, congrArg (Except.map (Id.mk .strId)) hid', rfl, hsame⟩
  | pathId =>
    obtain ⟨hid, rfl⟩ := hencoded
    obtain ⟨value, hvalue⟩ := h.paths.known hid
    obtain ⟨id', hid', hsame⟩ := lookup_idxOf (start_paths reader h) hpaths hid hvalue "PathId"
    exact ⟨⟨.pathId, id'⟩, congrArg (Except.map (Id.mk .pathId)) hid', rfl, hsame⟩
  | tokenId =>
    obtain ⟨hcontains, rfl⟩ := hencoded
    obtain ⟨id', hid', hshifted⟩ := shifted_decode reader.token_count hcontains "TokenId"
    exact ⟨⟨.tokenId, id'⟩, congrArg (Except.map (Id.mk .tokenId)) hid', rfl, hshifted⟩
  | textId =>
    obtain ⟨hcontains, rfl⟩ := hencoded
    obtain ⟨id', hid', hshifted⟩ := shifted_decode reader.text_count hcontains "TextId"
    exact ⟨⟨.textId, id'⟩, congrArg (Except.map (Id.mk .textId)) hid', rfl, hshifted⟩
  | symbolId =>
    obtain ⟨id', hid', hshifted⟩ :=
      shifted_decodeSentinel reader.symbol_count hencoded "SymbolId"
    exact ⟨⟨.symbolId, id'⟩, congrArg (Except.map (Id.mk .symbolId)) hid', rfl, hshifted⟩
  | definitionId =>
    obtain ⟨id', hid', hshifted⟩ :=
      shifted_decodeSentinel reader.definition_count hencoded "DefinitionId"
    exact ⟨⟨.definitionId, id'⟩, congrArg (Except.map (Id.mk .definitionId)) hid', rfl, hshifted⟩

variable (reader) in
theorem deserializeAll_spec (h : writer.SessionHolds uses session)
    (hstrs : uses.strs.length ≤ 2 ^ 32) (hpaths : uses.paths.length ≤ 2 ^ 32)
    {ids : List Id} {values : List ℕ}
    (hencoded : List.Forall₂ (writer.Encoded uses) ids values) :
    ∃ ids', deserializeAll reader.rebases (reader.start session).1 (ids.map (·.kind)) values =
        .ok ids' ∧
      List.Forall₂ (reader.Restored (reader.start session).2) ids ids' := by
  induction hencoded with
  | nil => exact ⟨[], rfl, List.Forall₂.nil⟩
  | @cons id value ids values hid _ ih =>
    obtain ⟨id', hid', hrestored⟩ :=
      deserialize_spec reader h hstrs hpaths hid
    obtain ⟨ids', hids', hall⟩ := ih
    refine ⟨id' :: ids', ?_, List.Forall₂.cons hrestored hall⟩
    simp [deserializeAll, hid', hids', bind, Except.bind]

theorem Shifted.lt_iff (ha : Shifted window rebase a a') (hb : Shifted window rebase b b') :
    (a' = b' ↔ a = b) ∧ (a' < b' ↔ a < b) := by
  obtain ⟨ha, -, -⟩ := ha
  obtain ⟨hb, -, -⟩ := hb
  omega

theorem sentinel_lt_iff (ha : a = 0 ∧ a' = 0 ∨ Shifted window rebase a a')
    (hb : b = 0 ∧ b' = 0 ∨ Shifted window rebase b b') :
    (a' = b' ↔ a = b) ∧ (a' < b' ↔ a < b) := by
  rcases ha with ⟨rfl, rfl⟩ | ⟨ha, ha₁, ha₂⟩
  · rcases hb with ⟨rfl, rfl⟩ | ⟨hb, hb₁, hb₂⟩ <;> omega
  · rcases hb with ⟨rfl, rfl⟩ | ⟨hb, hb₁, hb₂⟩ <;> omega

theorem SameValue.eq_iff {table' : GlobalTable T}
    (ha : SameValue table table' a a') (hb : SameValue table table' b b') :
    a' = b' ↔ a = b := by
  obtain ⟨x, hx, hx'⟩ := ha
  obtain ⟨y, hy, hy'⟩ := hb
  refine ⟨fun heq => ?_, fun heq => ?_⟩
  · subst heq
    obtain rfl : x = y := some.inj (hx'.symm.trans hy')
    exact getValue_injective hx hy
  · subst heq
    obtain rfl : x = y := some.inj (hx.symm.trans hy)
    exact getValue_injective hx' hy'

omit [DecidableEq PathBuf] in
theorem Reader.Restored.compare {after : Tables PathBuf} {a a' b b' : Id}
    (ha : reader.Restored after a a') (hb : reader.Restored after b b')
    (hkind : a.kind = b.kind) :
    (a'.value = b'.value ↔ a.value = b.value) ∧
      (a.kind ≠ .strId → a.kind ≠ .pathId → (a'.value < b'.value ↔ a.value < b.value)) := by
  obtain ⟨kind, a⟩ := a
  obtain ⟨kind', b⟩ := b
  obtain rfl : kind = kind' := hkind
  replace ha := ha.2
  replace hb := hb.2
  cases kind with
  | strId => exact ⟨ha.eq_iff hb, fun h => absurd rfl h⟩
  | pathId => exact ⟨ha.eq_iff hb, fun _ h => absurd rfl h⟩
  | tokenId => exact ⟨(ha.lt_iff hb).1, fun _ _ => (ha.lt_iff hb).2⟩
  | textId => exact ⟨(ha.lt_iff hb).1, fun _ _ => (ha.lt_iff hb).2⟩
  | symbolId =>
    have h := sentinel_lt_iff ha hb
    exact ⟨h.1, fun _ _ => h.2⟩
  | definitionId =>
    have h := sentinel_lt_iff ha hb
    exact ⟨h.1, fun _ _ => h.2⟩

theorem map_error_iff :
    (∃ error, result.map f = .error error) ↔ ∃ error, result = .error error := by
  cases result with
  | error error => simp [Except.map]
  | ok value => simp [Except.map]

theorem deserialize_error_iff (h : writer.SessionHolds uses session) (kind : Kind) (value : ℕ) :
    (∃ error, deserialize reader.rebases (reader.start session).1 kind value =
      .error error) ↔ Reader.limit writer session kind ≤ value := by
  unfold deserialize
  rw [map_error_iff]
  have hstrs := congrArg List.length (start_strs reader h)
  have hpaths := congrArg List.length (start_paths reader h)
  simp only [length_map] at hstrs hpaths
  cases kind with
  | strId =>
    rw [Reader.limit, h.strs.length, ← hstrs]
    exact lookup_error_iff
  | pathId =>
    rw [Reader.limit, h.paths.length, ← hpaths]
    exact lookup_error_iff
  | tokenId => rw [Reader.limit, ← reader.token_count]; exact decode_error_iff
  | textId => rw [Reader.limit, ← reader.text_count]; exact decode_error_iff
  | symbolId => rw [Reader.limit, ← reader.symbol_count]; exact decodeSentinel_error_iff
  | definitionId =>
    rw [Reader.limit, ← reader.definition_count]
    exact decodeSentinel_error_iff

theorem mem_zip_of_forall₂ {R : α → β → Prop} {xs : List α} {ys : List β}
    (h : List.Forall₂ R xs ys) {x : α} {y : β} (hmem : (x, y) ∈ xs.zip ys) : R x y := by
  induction h with
  | nil => simp at hmem
  | cons hxy _ ih =>
    rcases mem_cons.1 hmem with heq | hmem
    · obtain ⟨rfl, rfl⟩ := mk.inj heq
      exact hxy
    · exact ih hmem

theorem restores_of_le (h : writer.SessionHolds uses session)
    (hstrs : uses.strs.length ≤ 2 ^ 32) (hpaths : uses.paths.length ≤ 2 ^ 32)
    (hencoded : List.Forall₂ (writer.Encoded uses) ids values) :
    reader.Restores session ids values := by
  obtain ⟨ids', hids', hall⟩ :=
    deserializeAll_spec reader h hstrs hpaths hencoded
  refine ⟨⟨ids', hids', hall, fun a a' b b' ha hb hkind => ?_⟩, deserialize_error_iff h⟩
  exact Reader.Restored.compare (mem_zip_of_forall₂ hall ha) (mem_zip_of_forall₂ hall hb) hkind

end Reading

section Overflow

variable [DecidableEq PathBuf] {writer : Writer PathBuf} {reader : Reader writer}
  {uses : Writer.Uses} {session : EncodeSession PathBuf}

omit [DecidableEq PathBuf] in
theorem exists_deserialize {R : Id → Id → Prop} {decoder : DecodeSession} {rebases : Rebases}
    {ids ids' : List Id} {values : List ℕ} {id : Id}
    (hencoded : List.Forall₂ (writer.Encoded uses) ids values)
    (hids' : deserializeAll rebases decoder (ids.map (·.kind)) values = .ok ids')
    (hall : List.Forall₂ R ids ids') (hid : id ∈ ids) :
    ∃ value id', writer.Encoded uses id value ∧
      deserialize rebases decoder id.kind value = .ok id' ∧ R id id' := by
  induction hencoded generalizing ids' with
  | nil => simp at hid
  | @cons first value ids values hfirst _ ih =>
    simp only [map_cons, deserializeAll, bind, Except.bind] at hids'
    cases hread : deserialize rebases decoder first.kind value with
    | error error => simp [hread] at hids'
    | ok first' =>
      cases hrest : deserializeAll rebases decoder (ids.map (·.kind)) values with
      | error error => simp [hread, hrest] at hids'
      | ok rest =>
        simp only [hread, hrest, Except.ok.injEq] at hids'
        subst hids'
        obtain ⟨hrelated, hrelated'⟩ := List.forall₂_cons.1 hall
        rcases mem_cons.1 hid with rfl | hid
        · exact ⟨value, first', hfirst, hread, hrelated⟩
        · exact ih hrest hrelated' hid

theorem lookup_wraps {order ids : List ℕ}
    (h : ids.map after.getValue = order.map table.getValue) (hnodup : order.Nodup)
    (hlen : 2 ^ 32 < order.length) {what : String} {id' : ℕ}
    (hid' : DecodeSession.lookup ids what (order.idxOf order[2 ^ 32] % 2 ^ 32) = .ok id') :
    ¬ SameValue table after order[2 ^ 32] id' := by
  rintro ⟨value, hvalue, hsame⟩
  have hindex : order.idxOf order[2 ^ 32] % 2 ^ 32 = 0 := by
    rw [hnodup.idxOf_getElem, mod_self]
  have hzero : 0 < order.length := by omega
  obtain ⟨id, hlookup, hfirst⟩ := lookup_spec h hzero what
  rw [hindex, hlookup] at hid'
  obtain rfl := Except.ok.inj hid'
  have heq := getValue_injective (hfirst.symm.trans hsame) hvalue
  exact absurd ((hnodup.getElem_inj_iff).1 heq) (by decide)

theorem count_reserved (window : IdWindow) : 0 + window.count < 2 ^ 64 := by
  have h := window.bounded
  simp only [IdWindow.count]
  omega

def emptyReader (writer : Writer PathBuf) : Reader writer where
  tables := { strings := .empty, paths := .empty }
  tokenRebase := ⟨0, writer.tokenWindow.count, count_reserved _⟩
  textRebase := ⟨0, writer.textWindow.count, count_reserved _⟩
  rebases :=
    { symbolRebase := ⟨0, writer.windows.symbolWindow.count, count_reserved _⟩
      definitionRebase := ⟨0, writer.windows.definitionWindow.count, count_reserved _⟩ }
  token_count := rfl
  text_count := rfl
  symbol_count := rfl
  definition_count := rfl

theorem map_ok {b : β} (h : result.map f = .ok b) : ∃ a, result = .ok a ∧ f a = b := by
  cases result with
  | error error => cases h
  | ok a => exact ⟨a, rfl, Except.ok.inj h⟩

theorem not_restores_of_strs (h : writer.SessionHolds uses session)
    (hencoded : List.Forall₂ (writer.Encoded uses) ids values)
    (hmem : ∀ value, value ∈ uses.strs ↔ ⟨.strId, value⟩ ∈ ids)
    (hlen : 2 ^ 32 < uses.strs.length) : ¬ reader.Restores session ids values := by
  rintro ⟨⟨ids', hids', hall, -⟩, -⟩
  have hid := (hmem _).1 (getElem_mem hlen)
  obtain ⟨value, id', ⟨-, rfl⟩, hread, -, hsame⟩ := exists_deserialize hencoded hids' hall hid
  obtain ⟨id, hlookup, rfl⟩ := map_ok hread
  exact lookup_wraps (start_strs reader h) h.strs.nodup hlen hlookup hsame

theorem not_restores_of_paths (h : writer.SessionHolds uses session)
    (hencoded : List.Forall₂ (writer.Encoded uses) ids values)
    (hmem : ∀ value, value ∈ uses.paths ↔ ⟨.pathId, value⟩ ∈ ids)
    (hlen : 2 ^ 32 < uses.paths.length) : ¬ reader.Restores session ids values := by
  rintro ⟨⟨ids', hids', hall, -⟩, -⟩
  have hid := (hmem _).1 (getElem_mem hlen)
  obtain ⟨value, id', ⟨-, rfl⟩, hread, -, hsame⟩ := exists_deserialize hencoded hids' hall hid
  obtain ⟨id, hlookup, rfl⟩ := map_ok hread
  exact lookup_wraps (start_paths reader h) h.paths.nodup hlen hlookup hsame

theorem restores_iff (writer : Writer PathBuf) (hids : ∀ id ∈ ids, ¬ writer.Rejects id) :
    ∃ values session, writer.serializeAll ids = .ok (values, session) ∧
      ((∀ reader : Reader writer, reader.Restores session ids values) ↔
        (distinct .strId ids).card ≤ 2 ^ 32 ∧ (distinct .pathId ids).card ≤ 2 ^ 32) := by
  obtain ⟨values, session, hvalues, hholds, hencoded⟩ :=
    (sessionHolds_new writer).serializeAll hids
  have hstrs : ∀ value, value ∈ (ids.foldl Writer.Uses.add ⟨[], []⟩).strs ↔
      ⟨.strId, value⟩ ∈ ids := fun value => by simp [mem_foldl_strs]
  have hpaths : ∀ value, value ∈ (ids.foldl Writer.Uses.add ⟨[], []⟩).paths ↔
      ⟨.pathId, value⟩ ∈ ids := fun value => by simp [mem_foldl_paths]
  refine ⟨values, session, hvalues, ?_⟩
  rw [← length_eq_card hholds.strs.nodup hstrs, ← length_eq_card hholds.paths.nodup hpaths]
  refine ⟨fun h => ⟨?_, ?_⟩, fun h reader => restores_of_le hholds h.1 h.2 hencoded⟩
  · by_contra hlt
    exact not_restores_of_strs hholds hencoded hstrs (Nat.lt_of_not_le hlt) (h (emptyReader writer))
  · by_contra hlt
    exact not_restores_of_paths hholds hencoded hpaths (Nat.lt_of_not_le hlt)
      (h (emptyReader writer))

end Overflow

/-- A sequence of ids survives the codec if and only if writing it is an error, or it
names at most 2^32 strings and at most 2^32 paths. -/
theorem faithful_iff [DecidableEq PathBuf] (writer : Writer PathBuf) (ids : List Id) :
    Faithful writer ids ↔ (∃ id ∈ ids, writer.Rejects id) ∨ (distinct .strId ids).card ≤ 2 ^ 32 ∧
        (distinct .pathId ids).card ≤ 2 ^ 32 := by
  have herror := serializeAll_error_iff writer ids
  by_cases hrejects : ∃ id ∈ ids, writer.Rejects id
  · refine ⟨fun _ => Or.inl hrejects, fun _ => ⟨herror, fun values session hvalues => ?_⟩⟩
    obtain ⟨error, hfail⟩ := herror.2 hrejects
    rw [hvalues] at hfail
    cases hfail
  · obtain ⟨values, session, hvalues, hiff⟩ := restores_iff writer
      fun id hid hbad => hrejects ⟨id, hid, hbad⟩
    rw [or_iff_right hrejects, ← hiff]
    refine ⟨fun h => h.2 values session hvalues, fun h => ⟨herror, ?_⟩⟩
    intro values' session' hvalues'
    rw [hvalues] at hvalues'
    obtain ⟨rfl, rfl⟩ := mk.inj (Except.ok.inj hvalues')
    exact h

/-- The decimal numerals below `n`, each under its number. -/
def numerals (n : ℕ) : GlobalTable String where
  byLeft := fun value => value.toNat?.filter fun id => Nat.repr id = value ∧ id < n
  byRight := fun id => if id < n then some (Nat.repr id) else none
  last := n
  inverse := fun value id => by
    simp only [Option.filter_eq_some_iff, decide_eq_true_eq]
    constructor
    · rintro ⟨-, hrepr, hid⟩
      rw [if_pos hid, hrepr]
    · intro h
      split at h
      · rename_i hid
        obtain rfl := some.inj h
        exact ⟨Nat.toNat?_repr id, rfl, hid⟩
      · cases h
  issued := fun id value h => by
    split at h
    · assumption
    · cases h

/-- The process has interned one string more than the dictionary can index. -/
def numeralWriter (n : ℕ) : Writer String where
  tables := { strings := numerals n, paths := .empty }
  tokenWindow := ⟨0, 0, by decide⟩
  textWindow := ⟨0, 0, by decide⟩
  windows := { symbolWindow := ⟨0, 0, by decide⟩, definitionWindow := ⟨0, 0, by decide⟩ }

theorem not_restores_numerals {n : ℕ} (h : 2 ^ 32 < n) :
    ¬ Faithful (numeralWriter n) ((List.range n).map (Id.mk .strId)) := by
  intro hfaithful
  have hids : ∀ id ∈ (List.range n).map (Id.mk .strId), ¬ (numeralWriter n).Rejects id := by
    intro id hid
    obtain ⟨i, hi, rfl⟩ := mem_map.1 hid
    simp [Writer.Rejects, numeralWriter, getValue, numerals, mem_range.1 hi]
  obtain ⟨values, session, hvalues, hiff⟩ := restores_iff (numeralWriter n) hids
  have hcard := (hiff.1 (hfaithful.2 values session hvalues)).1
  have hdistinct : distinct .strId ((List.range n).map (Id.mk .strId)) = Finset.range n := by
    ext value
    simp [mem_distinct]
  rw [hdistinct, Finset.card_range] at hcard
  exact absurd h (Nat.not_lt.2 hcard)

/-- One string more than the dictionary can index: the last one reads back as the
first. -/
theorem not_faithful : ¬ ∀ (writer : Writer String) (ids : List Id), Faithful writer ids := fun h =>
  not_restores_numerals (lt_succ_self (2 ^ 32)) (h _ _)

end Veryl.Analyzer.FragmentCodec
