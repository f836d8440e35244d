import Veryl.Analyzer.CombLoopDetect.Ssa.Written
import Veryl.Analyzer.CombLoopDetect.Ssa.StoreValues

/-!
The written regions of a version bound what the paths to it write.
-/

namespace Veryl.Analyzer.CombLoopDetect

open Veryl.Library List
open Returns (payNat)

variable {v : VersionId} {work : ℕ} {stack : List Part}

variable {part : Part} {n walkTurns : ℕ} {bottom : List PositionDomain} {results : Written}
  {writes : List Piece} {parts : WrittenParts} {kept : Fragments} {r : Regions}

section Regions

variable {p : BitPosition} {parts regions : List PositionDomain}

theorem anyBit_append : AnyBit (parts ++ regions) p ↔ AnyBit parts p ∨ AnyBit regions p := by
  simp only [AnyBit, mem_append, or_and_right, exists_or]

theorem anyBit_sortRegions : AnyBit (sortRegions regions) p ↔ AnyBit regions p := by
  simp only [AnyBit, sortRegions, List.mem_dedup, mem_insertionSort]

theorem anyBit_intersection {left : PositionDomain} :
    AnyBit (regions.filterMap (intersection left)) p ↔ left.HasBit p ∧ AnyBit regions p := by
  simp only [AnyBit, mem_filterMap]
  constructor
  · rintro ⟨d, ⟨right, hright, hd⟩, hp⟩
    obtain ⟨hleft, hp⟩ := exists_mem_intersection.1 ⟨d, hd, hp⟩
    exact ⟨hleft, right, hright, hp⟩
  · rintro ⟨hleft, right, hright, hp⟩
    obtain ⟨d, hd, hp⟩ := exists_mem_intersection.2 ⟨hleft, hp⟩
    exact ⟨d, ⟨right, hright, hd⟩, hp⟩

theorem anyBit_flatMap {α : Type} {l : List α} {f : α → List PositionDomain} :
    AnyBit (l.flatMap f) p ↔ ∃ a ∈ l, AnyBit (f a) p := by
  simp only [AnyBit, mem_flatMap]
  constructor
  · rintro ⟨d, ⟨a, ha, hd⟩, hp⟩
    exact ⟨a, ha, d, hd, hp⟩
  · rintro ⟨a, ha, d, hd, hp⟩
    exact ⟨d, ⟨a, ha, hd⟩, hp⟩

end Regions

namespace Store

variable {K : Type} {st : Store K} {p : BitPosition} {fresh : Bool}

/-- What is joined of some inputs: their common definite bits and all of their bits. -/
def Joined (inputs : List Regions) (joined : Option (List PositionDomain) × List PositionDomain) : Prop :=
  (joined.1 = none ↔ inputs = []) ∧
    (∀ definite ∈ joined.1, ∀ p, AnyBit definite p ↔ ∀ input ∈ inputs, AnyBit input.1 p) ∧
    ∀ p, AnyBit joined.2 p ↔ ∃ input ∈ inputs, AnyBit input.1 p ∨ AnyBit input.2 p

theorem returns_joinInput {done : List Regions}
    {joined : Option (List PositionDomain) × List PositionDomain}
    (h : Joined done joined) (input : Regions) :
    Returns (joinInput joined input) (Joined (done ++ [input])) := by
  obtain ⟨definite, touched⟩ := joined
  obtain ⟨hnone, hdefinite, htouched⟩ := h
  have htouched' : ∀ p, AnyBit (touched ++ input.1 ++ input.2) p ↔
      ∃ i ∈ done ++ [input], AnyBit i.1 p ∨ AnyBit i.2 p := by
    intro p
    rw [anyBit_append, anyBit_append, htouched]
    simp only [mem_append, mem_singleton, or_and_right, exists_or, exists_eq_left, or_assoc]
  refine Returns.bind (payNat _) fun _ _ => ?_
  cases definite with
  | none =>
    obtain rfl := hnone.1 rfl
    refine Returns.pure ⟨by simp, ?_, htouched'⟩
    simp
  | some definite =>
    refine Returns.bind (payNat _) fun _ _ => Returns.pure ⟨by simp, ?_, htouched'⟩
    rintro _ ⟨⟩ p
    have hcommon : AnyBit (definite.flatMap fun left => input.1.filterMap (intersection left)) p ↔
        AnyBit definite p ∧ AnyBit input.1 p := by
      rw [anyBit_flatMap]
      simp only [anyBit_intersection]
      constructor
      · rintro ⟨left, hleft, hp, hinput⟩
        exact ⟨⟨left, hleft, hp⟩, hinput⟩
      · rintro ⟨⟨left, hleft, hp⟩, hinput⟩
        exact ⟨left, hleft, hp, hinput⟩
    rw [hcommon, hdefinite definite rfl]
    simp only [mem_append, mem_singleton, or_imp, forall_and, forall_eq]

theorem returns_joinedWrittenRegions (inputs : List Regions) :
    Returns (joinedWrittenRegions inputs) fun r =>
      (∀ p, AnyBit r.1 p ↔ inputs ≠ [] ∧ ∀ input ∈ inputs, AnyBit input.1 p) ∧
      ∀ p, AnyBit r.2 p ↔
        (∃ input ∈ inputs, AnyBit input.1 p ∨ AnyBit input.2 p) ∧ ¬AnyBit r.1 p := by
  have hempty : Joined [] (none, []) := ⟨by simp, by simp, by simp [AnyBit]⟩
  refine Returns.bind (Returns.foldlM (Q := Joined) hempty
    fun done input rest joined _ h => returns_joinInput h input) ?_
  rintro ⟨definite, touched⟩ ⟨hnone, hdefinite, htouched⟩
  have hcommon : ∀ p, AnyBit (definite.getD []) p ↔
      inputs ≠ [] ∧ ∀ input ∈ inputs, AnyBit input.1 p := by
    intro p
    cases definite with
    | none =>
      obtain rfl := hnone.1 rfl
      simp [AnyBit]
    | some definite =>
      have hne : inputs ≠ [] := fun hnil => Option.some_ne_none _ (hnone.2 hnil)
      rw [Option.getD_some, hdefinite definite rfl]
      exact (and_iff_right hne).symm
  refine Returns.bind (Returns.foldlM (Q := fun done maybe => ∀ p, AnyBit maybe p ↔
    AnyBit done p ∧ ¬AnyBit (definite.getD []) p) (by simp [AnyBit]) ?_) fun maybe hmaybe => ?_
  · intro done part rest maybe _ h
    refine Returns.bind (payNat _) fun _ _ => Returns.pure fun p => ?_
    rw [anyBit_append, anyBit_append, h, anyBit_complementAll, or_and_right]
  · refine Returns.pure ⟨fun p => anyBit_sortRegions.trans (hcommon p), fun p => ?_⟩
    rw [anyBit_sortRegions, anyBit_sortRegions, hmaybe, htouched]

/-- The positions of a part that the version below does not definitely write. -/
def unwritten (results : Written) (part : Part) : List PositionDomain :=
  complementAll [part.2] (results.regions part).1

theorem returns_takeBelow (results : Written) (below : List Part) (kept : Fragments) :
    Returns (below.foldlM (takeBelow results) (([], []), kept)) fun taken =>
      taken = ((below.flatMap fun part => (results.regions part).1,
        below.flatMap fun part => (results.regions part).2),
        (below.flatMap (unwritten results)).foldl Fragments.insert kept) := by
  refine Returns.foldlM (Q := fun done taken =>
    taken = ((done.flatMap fun part => (results.regions part).1,
      done.flatMap fun part => (results.regions part).2),
      (done.flatMap (unwritten results)).foldl Fragments.insert kept)) rfl ?_
  rintro done part rest _ - rfl
  refine Returns.bind (payNat _) fun _ _ => Returns.pure ?_
  simp only [flatMap_append, foldl_append, flatMap_singleton]
  rfl

theorem anyBit_cut (found : List PositionDomain) : ∀ parts maybe : List PositionDomain,
    let cut := found.foldl (fun (parts, maybe) box =>
      (parts.flatMap fun part => complement part box,
        maybe ++ parts.filterMap fun part => intersection part box)) (parts, maybe)
    (AnyBit cut.1 p ↔ AnyBit parts p ∧ ¬AnyBit found p) ∧
      (AnyBit cut.2 p ↔ AnyBit maybe p ∨ AnyBit parts p ∧ AnyBit found p) := by
  induction found with
  | nil =>
    simp [AnyBit]
  | cons box found ih =>
    intro parts maybe
    have hcut : AnyBit (parts.filterMap fun part => intersection part box) p ↔
        AnyBit parts p ∧ box.HasBit p := by
      simp only [AnyBit, mem_filterMap]
      constructor
      · rintro ⟨d, ⟨part, hpart, hd⟩, hp⟩
        obtain ⟨hbit, hbox⟩ := exists_mem_intersection.1 ⟨d, hd, hp⟩
        exact ⟨⟨part, hpart, hbit⟩, hbox⟩
      · rintro ⟨⟨part, hpart, hbit⟩, hbox⟩
        obtain ⟨d, hd, hp⟩ := exists_mem_intersection.2 ⟨hbit, hbox⟩
        exact ⟨d, ⟨part, hpart, hd⟩, hp⟩
    have hcons : AnyBit (box :: found) p ↔ box.HasBit p ∨ AnyBit found p := by
      simp [AnyBit]
    obtain ⟨hparts, hmaybe⟩ := ih (parts.flatMap fun part => complement part box)
      (maybe ++ parts.filterMap fun part => intersection part box)
    refine ⟨hparts.trans ?_, hmaybe.trans ?_⟩
    · rw [anyBit_flatMap_complement, hcons, not_or, and_assoc]
    rw [anyBit_flatMap_complement, anyBit_append, hcut, hcons]
    constructor
    · rintro ((h | ⟨h, hbox⟩) | ⟨⟨h, -⟩, hfound⟩)
      · exact .inl h
      · exact .inr ⟨h, .inl hbox⟩
      · exact .inr ⟨h, .inr hfound⟩
    · rintro (h | ⟨h, hfound⟩)
      · exact .inl (.inl h)
      · by_cases hbox : box.HasBit p
        · exact .inl (.inr ⟨h, hbox⟩)
        · exact .inr ⟨⟨h, hbox⟩, hfound.resolve_left hbox⟩

/-- Regions after some bits are written: definitely outside of what is kept. -/
def Cut (kept : Fragments) (regions : Regions) (written : BitPosition → Prop) (r : Regions) : Prop :=
  ∀ p, (AnyBit r.1 p ↔ AnyBit regions.1 p ∨ written p ∧ ¬kept.Has p) ∧
    (AnyBit r.2 p ↔ AnyBit regions.2 p ∨ written p ∧ kept.Has p)

theorem Cut.trans {regions r' : Regions} {written written' both : BitPosition → Prop}
    (h : Cut kept regions written r) (h' : Cut kept r written' r')
    (hboth : ∀ p, both p ↔ written p ∨ written' p) : Cut kept regions both r' := by
  intro p
  rw [(h' p).1, (h' p).2, (h p).1, (h p).2, hboth, or_assoc, or_assoc, or_and_right, or_and_right]
  exact ⟨Iff.rfl, Iff.rfl⟩

theorem returns_takeWrite (hkept : kept.Regular) (regions : Regions) (piece : Piece) :
    Returns (takeWrite kept regions piece) (Cut kept regions piece.domain.HasBit) := by
  refine Returns.bind (Fragments.returns_overlapping hkept.toOk (.inl hkept.solid)) fun found hfound => ?_
  refine Returns.pure fun p => ?_
  have hfound' : piece.domain.HasBit p → (AnyBit found p ↔ kept.Has p) := by
    intro hp
    constructor
    · rintro ⟨b, hb, hbit⟩
      exact ⟨b, ((hfound.2 b).1 hb).1, hbit⟩
    · rintro ⟨b, hb, hbit⟩
      exact ⟨b, (hfound.2 b).2 ⟨hb, fun hapart => hapart p ⟨hbit, hp⟩⟩, hbit⟩
  obtain ⟨hparts, hmaybe⟩ := anyBit_cut (p := p) found [piece.domain] regions.2
  have hpiece : AnyBit [piece.domain] p ↔ piece.domain.HasBit p := by
    simp [AnyBit]
  rw [hpiece] at hparts hmaybe
  refine ⟨?_, ?_⟩
  · change AnyBit (regions.1 ++ _) p ↔ _
    rw [anyBit_append, hparts]
    exact or_congr_right (and_congr_right fun hp => not_congr (hfound' hp))
  · rw [hmaybe]
    exact or_congr_right (and_congr_right hfound')

/-- A bit of one of the pieces. -/
def AnyPiece (pieces : List Piece) (p : BitPosition) : Prop :=
  ∃ piece ∈ pieces, piece.domain.HasBit p

theorem returns_takeWrites (writes : List Piece) (hkept : writes ≠ [] → kept.Regular)
    (regions : Regions) :
    Returns (writes.foldlM (takeWrite kept) regions) (Cut kept regions (AnyPiece writes)) := by
  have hnone : Cut kept regions (AnyPiece []) regions := by
    intro p
    have hno : ¬AnyPiece [] p := by
      simp [AnyPiece]
    exact ⟨(or_iff_left fun h => hno h.1).symm, (or_iff_left fun h => hno h.1).symm⟩
  refine Returns.foldlM (Q := fun done => Cut kept regions (AnyPiece done)) hnone ?_
  intro done piece rest r hl h
  have hregular : kept.Regular := hkept (by rw [hl]; simp)
  refine (returns_takeWrite hregular r piece).mono fun r' hr' => h.trans hr' fun p => ?_
  simp only [AnyPiece, mem_append, mem_singleton, or_and_right, exists_or, exists_eq_left]

/-- The version below a history. -/
def bottomOf (st : Store K) (log : ℕ) : VersionId := (st.nodes.node log).base

/-- The versions whose regions make up those of a version at one position: the
inputs of joins without a history, and the versions below the histories. -/
inductive Visits (st : Store K) (p : BitPosition) : VersionId → VersionId → Prop
  | refl (v : VersionId) : Visits st p v v
  | join {v input w : VersionId} {inputs : List VersionId} : st.visibleLog v = none →
      st.versions[v]? = some (.phi inputs) → input ∈ inputs → Visits st p input w → Visits st p v w
  | bottom {v w : VersionId} {n : ℕ} : st.visibleLog v = some n →
      Chain st (st.bottomOf n) p v (st.bottomOf n) → Visits st p (st.bottomOf n) w → Visits st p v w

/-- On some path the position is the entry version itself, past joins and the
writes of histories. -/
inductive Untouched (st : Store K) (p : BitPosition) : VersionId → Prop
  | entry {v : VersionId} {key : K} : st.versions[v]? = some (.entry key) → Untouched st p v
  | join {v input : VersionId} {inputs : List VersionId} : st.visibleLog v = none →
      st.versions[v]? = some (.phi inputs) → input ∈ inputs → Untouched st p input → Untouched st p v
  | bottom {v : VersionId} {n : ℕ} : st.visibleLog v = some n →
      Chain st (st.bottomOf n) p v (st.bottomOf n) → Untouched st p (st.bottomOf n) → Untouched st p v

/-- A history gives the position a version flagged as possibly holding the entry value, and
beside it the version below or a write without the flag; and the version below does not supply
the entry value there. -/
def Mixed (st : Store K) (p : BitPosition) (v : VersionId) : Prop :=
  ∃ n s s', st.visibleLog v = some n ∧
    (Chain st (st.bottomOf n) p v s ∧ s ≠ st.bottomOf n ∧ st.mayRetainEntry s = true) ∧
    (Chain st (st.bottomOf n) p v s' ∧ (s' = st.bottomOf n ∨ st.mayRetainEntry s' = false)) ∧
    ¬(Chain st (st.bottomOf n) p v (st.bottomOf n) ∧ Holds st p (st.bottomOf n) .entry)

/-- For a fresh entry value flags do not matter; else no history mixes. -/
def Settled (st : Store K) (fresh : Bool) (p : BitPosition) (v : VersionId) : Prop :=
  fresh = true ∨ ∀ w, Visits st p v w → ¬Mixed st p w

/-- The entry value is kept on some path. Copies of a fresh one count as written. -/
def KeepsEntry (st : Store K) (fresh : Bool) (p : BitPosition) (v : VersionId) : Prop :=
  if fresh then Untouched st p v else Holds st p v .entry

/-- What the regions of a part say. -/
structure Bounds (st : Store K) (fresh : Bool) (part : Part) (r : Regions) : Prop where
  inside : ∀ p, AnyBit r.1 p ∨ AnyBit r.2 p → part.2.HasBit p
  covers : ∀ p, part.2.HasBit p → Holds st p part.1 .written → AnyBit r.1 p ∨ AnyBit r.2 p
  definite : ∀ p, Settled st fresh p part.1 → AnyBit r.1 p → ¬KeepsEntry st fresh p part.1
  apart : ∀ p, Settled st fresh p part.1 → ¬(AnyBit r.1 p ∧ AnyBit r.2 p)

theorem isEntry_iff : st.isEntry v = true ↔ ∃ key, st.versions[v]? = some (.entry key) := by
  unfold isEntry
  split
  · rename_i key heq
    exact ⟨fun _ => ⟨key, heq⟩, fun _ => rfl⟩
  · rename_i hno
    exact ⟨nofun, fun ⟨key, heq⟩ => absurd heq (hno key)⟩

theorem not_holds_written_of_entry {key : K} (hv : st.versions[v]? = some (.entry key)) :
    ¬Holds st p v .written := by
  intro h
  cases h with
  | computed hv' hc =>
    cases hv.symm.trans hv'
    cases hc
  | imported hv' | guarded hv' _ | restricted hv' _ _ | join hv' _ _ | above hv' _ _ _ | pass hv' _ _ _ =>
    cases hv.symm.trans hv'

theorem bounds_leaf (hord : st.Ordered) (hlog : st.visibleLog part.1 = none)
    (hphi : ∀ inputs, st.versions[part.1]? ≠ some (.phi inputs)) :
    Bounds st fresh part (st.leafWrittenRegions part fresh) := by
  have hbit : ∀ p, AnyBit [part.2] p ↔ part.2.HasBit p := by
    simp [AnyBit]
  have hnil : ∀ p, ¬AnyBit [] p := by
    simp [AnyBit]
  unfold leafWrittenRegions
  split
  · rename_i hentry
    obtain ⟨key, hv⟩ := isEntry_iff.1 hentry
    exact ⟨fun p h => absurd h (by simp [hnil]), fun p _ h => absurd h (not_holds_written_of_entry hv),
      fun p _ h => absurd h (hnil p), fun p _ h => hnil p h.1⟩
  · rename_i hentry
    split
    · exact ⟨fun p h => (hbit p).1 (h.resolve_left (hnil p)), fun p hp _ => .inr ((hbit p).2 hp),
        fun p _ h => absurd h (hnil p), fun p _ h => hnil p h.1⟩
    · rename_i hretain
      refine ⟨fun p h => (hbit p).1 (h.resolve_right (hnil p)), fun p hp _ => .inl ((hbit p).2 hp),
        fun p _ _ hkeeps => ?_, fun p _ h => hnil p h.2⟩
      cases fresh with
      | true =>
        cases hkeeps with
        | entry hv => exact hentry (isEntry_iff.2 ⟨_, hv⟩)
        | join _ hv _ _ => exact hphi _ hv
        | bottom hv _ _ => cases hlog.symm.trans hv
      | false => exact hretain (by simpa using retains_of_holds hord hkeeps rfl)

theorem bounds_join {domain : PositionDomain} {inputs : List VersionId}
    (hlog : st.visibleLog v = none) (hphi : st.versions[v]? = some (.phi inputs))
    {regions : VersionId → Regions}
    (hregions : ∀ input ∈ inputs, Bounds st fresh (input, domain) (regions input)) :
    Returns (joinedWrittenRegions (inputs.map regions)) (Bounds st fresh (v, domain)) := by
  refine (returns_joinedWrittenRegions _).mono ?_
  rintro ⟨definite, maybe⟩ ⟨hdefinite, hmaybe⟩
  simp only [mem_map, exists_exists_and_eq_and, forall_exists_index, and_imp,
    forall_apply_eq_imp_iff₂] at hdefinite hmaybe
  have hsettled : ∀ {p input}, input ∈ inputs → Settled st fresh p v → Settled st fresh p input :=
    fun hin h => h.imp_right fun h w hw => h w (.join hlog hphi hin hw)
  refine ⟨fun p h => ?_, fun p hp h => ?_, fun p hs h hkeeps => ?_, fun p _ h => ((hmaybe p).1 h.2).2 h.1⟩
  · obtain h | h := h
    · obtain ⟨hne, hall⟩ := (hdefinite p).1 h
      obtain ⟨input, hin⟩ := exists_mem_of_ne_nil inputs (by simpa using hne)
      exact (hregions input hin).inside p (.inl (hall input hin))
    · obtain ⟨⟨input, hin, h⟩, -⟩ := (hmaybe p).1 h
      exact (hregions input hin).inside p h
  · cases h with
    | join hv hin hs =>
      cases hphi.symm.trans hv
      by_cases hd : AnyBit definite p
      · exact .inl hd
      · exact .inr ((hmaybe p).2 ⟨⟨_, hin, (hregions _ hin).covers p hp hs⟩, hd⟩)
    | computed hv hc =>
      cases hphi.symm.trans hv
      cases hc
    | imported hv | guarded hv _ | restricted hv _ _ | above hv _ _ _ | pass hv _ _ _ =>
      cases hphi.symm.trans hv
  · have hinput : ∀ input ∈ inputs, ¬KeepsEntry st fresh p input := fun input hin =>
      (hregions input hin).definite p (hsettled hin hs) (((hdefinite p).1 h).2 input hin)
    cases fresh with
    | true =>
      cases hkeeps with
      | entry hv => cases hphi.symm.trans hv
      | join _ hv hin hs =>
        cases hphi.symm.trans hv
        exact hinput _ hin hs
      | bottom hv _ _ => cases hlog.symm.trans hv
    | false =>
      cases hkeeps with
      | join hv hin hs =>
        cases hphi.symm.trans hv
        exact hinput _ hin hs
      | entry hv | imported hv | guarded hv _ | restricted hv _ _ | above hv _ _ _ | pass hv _ _ _ =>
        cases hphi.symm.trans hv

/-- The pieces of a history within a region, apart from those of the version below. -/
structure Parted (st : Store K) (part : Part) (n : ℕ) (bottom : List PositionDomain)
    (writes : List Piece) : Prop where
  solid : part.2.Inhabited → ∀ b ∈ bottom, b.Inhabited
  distinct : bottom.Pairwise PositionDomain.Apart
  bottom : ∀ p, AnyBit bottom p ↔
    part.2.HasBit p ∧ Chain st (st.bottomOf n) p part.1 (st.bottomOf n)
  solidWrites : Logs.SolidPieces writes
  writes : ∀ p s, Logs.Supplied writes s p ↔
    part.2.HasBit p ∧ s ≠ st.bottomOf n ∧ Chain st (st.bottomOf n) p part.1 s

/-- What the version below a history contributes at the positions it supplies: those
it definitely writes, those it may write, and those kept. -/
structure Bottom (st : Store K) (fresh : Bool) (part : Part) (n : ℕ)
    (definite maybe kept : BitPosition → Prop) : Prop where
  inside : ∀ p, definite p ∨ maybe p →
    part.2.HasBit p ∧ Chain st (st.bottomOf n) p part.1 (st.bottomOf n)
  kept_iff : ∀ p, kept p ↔
    (part.2.HasBit p ∧ Chain st (st.bottomOf n) p part.1 (st.bottomOf n)) ∧ ¬definite p
  covers : ∀ p, part.2.HasBit p ∧ Chain st (st.bottomOf n) p part.1 (st.bottomOf n) →
    Holds st p (st.bottomOf n) .written → definite p ∨ maybe p
  keeps : ∀ p, Settled st fresh p (st.bottomOf n) → definite p →
    ¬KeepsEntry st fresh p (st.bottomOf n)
  apart : ∀ p, Settled st fresh p (st.bottomOf n) → ¬(definite p ∧ maybe p)

theorem bottom_entry
    (hparted : Parted st part n bottom writes) (hentry : st.isEntry (st.bottomOf n) = true) :
    Bottom st fresh part n (fun _ => False) (fun _ => False) (AnyBit bottom) := by
  obtain ⟨key, hv⟩ := isEntry_iff.1 hentry
  exact ⟨nofun, fun p => (hparted.bottom p).trans (and_iff_left id).symm,
    fun p _ h => absurd h (not_holds_written_of_entry hv), nofun, nofun⟩

theorem bottom_below (hparted : Parted st part n bottom writes)
    (hresults : ∀ domain ∈ bottom, Bounds st fresh (st.bottomOf n, domain)
      (results.regions (st.bottomOf n, domain))) :
    Bottom st fresh part n
      (fun p => ∃ domain ∈ bottom, AnyBit (results.regions (st.bottomOf n, domain)).1 p)
      (fun p => ∃ domain ∈ bottom, AnyBit (results.regions (st.bottomOf n, domain)).2 p)
      (fun p => ∃ domain ∈ bottom, AnyBit (unwritten results (st.bottomOf n, domain)) p) := by
  -- the pieces are disjoint, so a position lies in one of them
  have hunique : ∀ {p d d'}, d ∈ bottom → d' ∈ bottom → d.HasBit p → d'.HasBit p → d = d' := by
    intro p d d' hd hd' hp hp'
    by_contra hne
    exact hparted.distinct.forall hd hd' hne p ⟨hp, hp'⟩
  refine ⟨?_, fun p => ?_, ?_, ?_, ?_⟩
  · rintro p (⟨d, hd, h⟩ | ⟨d, hd, h⟩)
    · exact (hparted.bottom p).1 ⟨d, hd, (hresults d hd).inside p (.inl h)⟩
    · exact (hparted.bottom p).1 ⟨d, hd, (hresults d hd).inside p (.inr h)⟩
  · have hunwritten : ∀ d, AnyBit (unwritten results (st.bottomOf n, d)) p ↔
        d.HasBit p ∧ ¬AnyBit (results.regions (st.bottomOf n, d)).1 p := by
      intro d
      rw [unwritten, anyBit_complementAll]
      simp [AnyBit]
    simp only [hunwritten, ← hparted.bottom]
    constructor
    · rintro ⟨d, hd, hp, hnot⟩
      refine ⟨⟨d, hd, hp⟩, ?_⟩
      rintro ⟨d', hd', h⟩
      obtain rfl := hunique hd hd' hp ((hresults d' hd').inside p (.inl h))
      exact hnot h
    · rintro ⟨⟨d, hd, hp⟩, hnot⟩
      exact ⟨d, hd, hp, fun h => hnot ⟨d, hd, h⟩⟩
  · intro p hp h
    obtain ⟨d, hd, hbit⟩ := (hparted.bottom p).2 hp
    exact ((hresults d hd).covers p hbit h).imp (fun h => ⟨d, hd, h⟩) fun h => ⟨d, hd, h⟩
  · rintro p hs ⟨d, hd, h⟩
    exact (hresults d hd).definite p hs h
  · rintro p hs ⟨⟨d, hd, h⟩, d', hd', h'⟩
    obtain rfl := hunique hd hd' ((hresults d hd).inside p (.inl h)) ((hresults d' hd').inside p (.inr h'))
    exact (hresults d hd).apart p hs ⟨h, h'⟩

theorem anyPiece_filter (flag : VersionId → Bool) {b : Bool} :
    AnyPiece (writes.filter fun piece => flag piece.version == b) p ↔
      ∃ s, Logs.Supplied writes s p ∧ flag s = b := by
  simp only [AnyPiece, Logs.Supplied, mem_filter, beq_iff_eq]
  constructor
  · rintro ⟨piece, ⟨hpiece, hflag⟩, hp⟩
    exact ⟨piece.version, ⟨piece, hpiece, rfl, hp⟩, hflag⟩
  · rintro ⟨s, ⟨piece, hpiece, rfl, hp⟩, hflag⟩
    exact ⟨piece, ⟨hpiece, hflag⟩, hp⟩

theorem returns_loggedWrittenRegions {entry : List PositionDomain} {below : List Part}
    (hapart : (entry ++ below.flatMap (unwritten results)).Pairwise PositionDomain.Apart)
    (hsolid : writes ≠ [] → ∀ b ∈ entry ++ below.flatMap (unwritten results), b.Inhabited) :
    Returns (st.loggedWrittenRegions entry below writes results fresh) fun r => ∀ p,
      (AnyBit r.1 p ↔ (∃ part ∈ below, AnyBit (results.regions part).1 p) ∨
        (∃ s, Logs.Supplied writes s p ∧ (!fresh && st.mayRetainEntry s) = false) ∧
          ¬(AnyBit entry p ∨ ∃ part ∈ below, AnyBit (unwritten results part) p)) ∧
      (AnyBit r.2 p ↔ (∃ part ∈ below, AnyBit (results.regions part).2 p) ∨
        (∃ s, Logs.Supplied writes s p ∧ (!fresh && st.mayRetainEntry s) = true) ∨
        (∃ s, Logs.Supplied writes s p ∧ (!fresh && st.mayRetainEntry s) = false) ∧
          (AnyBit entry p ∨ ∃ part ∈ below, AnyBit (unwritten results part) p)) := by
  refine Returns.bind (returns_takeBelow results below _) ?_
  rintro _ rfl
  rw [← foldl_append]
  have hhas : ∀ p, ((entry ++ below.flatMap (unwritten results)).foldl Fragments.insert
      Fragments.empty).Has p ↔ AnyBit entry p ∨ ∃ part ∈ below, AnyBit (unwritten results part) p := by
    intro p
    rw [← anyBit_flatMap, ← anyBit_append, Fragments.Has, AnyBit, AnyBit]
    simp only [Fragments.mem_foldl_insert, Fragments.empty, not_mem_nil, or_false]
  have hfilter : ∀ piece : Piece, (!(!fresh && st.mayRetainEntry piece.version)) =
      ((!fresh && st.mayRetainEntry piece.version) == false) := fun _ => by simp
  have hkept : (writes.filter fun piece => !(!fresh && st.mayRetainEntry piece.version)) ≠ [] →
      ((entry ++ below.flatMap (unwritten results)).foldl Fragments.insert Fragments.empty).Regular := by
    intro hne
    have hwrites : writes ≠ [] := by
      rintro rfl
      exact hne rfl
    exact Fragments.regular_foldl_insert (hsolid hwrites)
      (fun a ha b hb hab => hapart.forall ha hb hab) Fragments.regular_empty
      fun a _ b hb => absurd hb not_mem_nil
  have hretained : ∀ p, AnyBit ((writes.filter fun piece => !fresh && st.mayRetainEntry piece.version).map
      (·.domain)) p ↔ ∃ s, Logs.Supplied writes s p ∧ (!fresh && st.mayRetainEntry s) = true := by
    intro p
    rw [← anyPiece_filter fun s => !fresh && st.mayRetainEntry s]
    simp [AnyBit, AnyPiece]
  refine (returns_takeWrites _ hkept _).mono fun r hr p => ?_
  obtain ⟨hdefinite, hmaybe⟩ := hr p
  rw [hhas] at hdefinite hmaybe
  simp only [hfilter, anyPiece_filter fun s => !fresh && st.mayRetainEntry s] at hdefinite hmaybe
  rw [anyBit_append, hretained, anyBit_flatMap, or_assoc] at hmaybe
  rw [anyBit_flatMap] at hdefinite
  exact ⟨hdefinite, hmaybe⟩

theorem pairwise_unwritten (h : bottom.Pairwise PositionDomain.Apart)
    (results : Written) (base : VersionId) :
    ((bottom.map fun domain => (base, domain)).flatMap (unwritten results)).Pairwise
      PositionDomain.Apart := by
  rw [flatMap_map, pairwise_flatMap]
  refine ⟨fun d _ => pairwise_complementAll (pairwise_singleton _ _), h.imp ?_⟩
  intro a b hab d hd d' hd' p ⟨hp, hp'⟩
  have hinside : ∀ {a d}, d ∈ unwritten results (base, a) → d.HasBit p → a.HasBit p := by
    intro a d hd hp
    have := (anyBit_complementAll.1 ⟨d, hd, hp⟩).1
    simpa [AnyBit] using this
  exact hab p ⟨hinside hd hp, hinside hd' hp'⟩

/-- How a version supplies a region, said of its history. -/
def PartsOf (st : Store K) (part : Part) (parts : WrittenParts) : Prop :=
  match st.visibleLog part.1 with
  | none => parts = match st.versions[part.1]? with
    | some (.phi inputs) => .join (inputs.map fun input => (input, part.2))
    | _ => .leaf
  | some n => ∃ bottom writes, Parted st part n bottom writes ∧
      parts = if st.isEntry (st.bottomOf n) then .logged bottom [] writes
        else .logged [] (bottom.map fun domain => (st.bottomOf n, domain)) writes

theorem writtenParts_mono {walkTurns' : ℕ} (hle : walkTurns ≤ walkTurns') {r : WrittenParts × ℕ}
    (h : st.writtenParts walkTurns part work = some r) :
    st.writtenParts walkTurns' part work = some r := by
  unfold writtenParts at h ⊢
  cases hlog : st.visibleLog part.1 with
  | none =>
    rw [hlog] at h
    exact h
  | some n =>
    rw [hlog] at h
    obtain ⟨⟨pieces, work'⟩, hres, h⟩ := Option.bind_eq_some_iff.1 h
    exact Option.bind_eq_some_iff.2 ⟨(pieces, work'), Logs.resolve_mono hle hres, h⟩

/-- All results bound what their parts write. -/
def Sound (st : Store K) (fresh : Bool) (results : Written) : Prop :=
  ∀ part r, lookup results part = some r → Bounds st fresh part r

theorem Sound.regions (h : Sound st fresh results)
    (hdone : (lookup results part).isSome) : Bounds st fresh part (results.regions part) := by
  obtain ⟨r, hr⟩ := Option.isSome_iff_exists.1 hdone
  rw [Written.regions, hr]
  exact h part r hr

theorem Sound.cons {results : Written} (h : Sound st fresh results) {part : Part}
    (hr : Bounds st fresh part r) : Sound st fresh ((part, r) :: results) := by
  intro part' r' hlookup
  rw [lookup_cons] at hlookup
  split at hlookup
  · rename_i heq
    cases heq
    cases hlookup
    exact hr
  · exact h part' r' hlookup

theorem isSome_of_missing
    (h : ¬(parts.dependencies.filter fun dependency => (lookup results dependency).isNone).isEmpty = false) :
    ∀ dependency ∈ parts.dependencies, (lookup results dependency).isSome := by
  intro dependency hdep
  rw [Bool.not_eq_false, List.isEmpty_iff, filter_eq_nil_iff] at h
  simpa [Option.isSome_iff_ne_none] using h dependency hdep

/-- With enough turns the visit of a stack ends as stated. -/
def Ends (st : Store K) (walkTurns : ℕ) (fresh : Bool) (stack : List Part) (results : Written)
    (P : Written → Prop) : Prop :=
  ∃ enough, ∀ turns ≥ enough, Returns (st.settle walkTurns fresh turns stack results) P

/-- The visit of a part on top of a stack gets it done and goes on. -/
def Finishes (st : Store K) (walkTurns : ℕ) (fresh : Bool) (part : Part) : Prop :=
  ∀ (stack : List Part) (results : Written) (P : Written → Prop), Sound st fresh results →
    (∀ results', Sound st fresh results' →
      (∀ other, (lookup results other).isSome → (lookup results' other).isSome) →
      (lookup results' part).isSome → Ends st walkTurns fresh stack results' P) →
    Ends st walkTurns fresh (part :: stack) results P

theorem ends_of_turn {P : Written → Prop} (h : ∃ enough, ∀ turns ≥ enough,
      Returns (st.settle walkTurns fresh (turns + 1) (part :: stack) results) P) :
    Ends st walkTurns fresh (part :: stack) results P := by
  obtain ⟨enough, h⟩ := h
  refine ⟨enough + 1, fun turns hle => ?_⟩
  obtain ⟨turns, rfl⟩ : ∃ k, turns = k + 1 := ⟨turns - 1, by omega⟩
  exact h turns (by omega)

theorem finishes_all (parts : List Part) (h : ∀ part ∈ parts, Finishes st walkTurns fresh part) :
    ∀ (stack : List Part) (results : Written) (P : Written → Prop), Sound st fresh results →
      (∀ results', Sound st fresh results' →
        (∀ other, (lookup results other).isSome → (lookup results' other).isSome) →
        (∀ part ∈ parts, (lookup results' part).isSome) → Ends st walkTurns fresh stack results' P) →
      Ends st walkTurns fresh (parts ++ stack) results P := by
  induction parts with
  | nil => exact fun stack results P hsound hgo => hgo results hsound (fun _ h => h) nofun
  | cons part parts ih =>
    intro stack results P hsound hgo
    refine h part (mem_cons_self ..) (parts ++ stack) results P hsound
      fun results' hsound' hkeep hdone => ?_
    refine ih (fun q hq => h q (mem_cons_of_mem _ hq)) stack results' P hsound'
      fun results'' hsound'' hkeep' hall => ?_
    refine hgo results'' hsound'' (fun other h => hkeep' other (hkeep other h)) fun q hq => ?_
    obtain rfl | hq := mem_cons.1 hq
    · exact hkeep' q hdone
    · exact hall q hq

theorem exists_walk {Q : ℕ → Part → Prop} (parts : List Part)
    (h : ∀ part ∈ parts, ∃ walk, ∀ walkTurns ≥ walk, Q walkTurns part) :
    ∃ walk, ∀ walkTurns ≥ walk, ∀ part ∈ parts, Q walkTurns part := by
  induction parts with
  | nil => exact ⟨0, nofun⟩
  | cons part parts ih =>
    obtain ⟨walk, hwalk⟩ := h part (mem_cons_self ..)
    obtain ⟨walk', hwalk'⟩ := ih fun q hq => h q (mem_cons_of_mem _ hq)
    refine ⟨max walk walk', fun walkTurns hle q hq => ?_⟩
    obtain rfl | hq := mem_cons.1 hq
    · exact hwalk walkTurns (Nat.le_trans (Nat.le_max_left ..) hle)
    · exact hwalk' walkTurns (Nat.le_trans (Nat.le_max_right ..) hle) q hq

section

variable (hok : st.Ok)

include hok

theorem isLog_of_visibleLog {v : ℕ} (hlog : st.visibleLog v = some n) :
    lookup st.logs v = some n ∧ st.IsLog n v := by
  obtain ⟨hlog, -⟩ := Option.filter_eq_some_iff.1 hlog
  obtain ⟨hn, -, hv, -⟩ := hok.logged v n hlog
  exact ⟨hlog, hn, hv, .inl hlog⟩

theorem parted_of_resolved (hothers : st.writesOthers = true)
    (hlog : st.visibleLog part.1 = some n) {pieces : List Piece}
    (h : Logs.Resolved st.nodes n part.2 pieces) :
    Parted st part n ((pieces.filter fun piece => piece.version = st.bottomOf n).map (·.domain))
      (pieces.filter fun piece => piece.version ≠ st.bottomOf n) := by
  obtain ⟨writes, left, rfl, hleft, hsolid, hwritesSolid, hbottom, hwrites⟩ := h
  have hisLog := (isLog_of_visibleLog hok hlog).2
  have hother : ∀ p s, Logs.Leads st.nodes p 0 n (some s) → s ≠ st.bottomOf n :=
    fun p => ne_base_of_leads hok hothers n part.1 hisLog
  have hne : ∀ piece ∈ writes, piece.version ≠ st.bottomOf n := by
    intro piece hpiece
    obtain ⟨p, hp⟩ := hwritesSolid piece hpiece
    have hlead := ((hwrites p piece.version).1 ⟨piece, hpiece, rfl, hp⟩).2
    exact hother p _ hlead
  have hfilter : ((writes ++ left.boxes.map fun domain => (⟨st.bottomOf n, domain⟩ : Piece)).filter
      fun piece => piece.version = st.bottomOf n).map (·.domain) = left.boxes := by
    rw [filter_append, filter_eq_nil_iff.2 (by simpa using hne), nil_append,
      filter_eq_self.2 (by simp), map_map]
    exact map_id _
  have hfilter' : (writes ++ left.boxes.map fun domain => (⟨st.bottomOf n, domain⟩ : Piece)).filter
      (fun piece => piece.version ≠ st.bottomOf n) = writes := by
    rw [filter_append, filter_eq_self.2 (by simpa using hne),
      filter_eq_nil_iff.2 (by simp), append_nil]
  change Parted st part n (((writes ++ left.boxes.map fun domain => (⟨st.bottomOf n, domain⟩ : Piece)).filter
    fun piece => piece.version = st.bottomOf n).map (·.domain)) ((writes ++ left.boxes.map fun domain =>
      (⟨st.bottomOf n, domain⟩ : Piece)).filter fun piece => piece.version ≠ st.bottomOf n)
  rw [hfilter, hfilter']
  refine ⟨hsolid, hleft.apart, fun p => (hbottom p).trans (and_congr_right fun _ => ?_), hwritesSolid,
    fun p s => (hwrites p s).trans (and_congr_right fun _ => ?_)⟩
  · rw [bottomOf, ← supplies_iff_chain hok n part.1 hisLog]
    refine ⟨fun h => .inr ⟨h, rfl⟩, fun h => h.elim (fun h => ?_) And.left⟩
    exact absurd rfl (hother p _ h)
  · rw [bottomOf, ← supplies_iff_chain hok n part.1 hisLog]
    refine ⟨fun h => ⟨hother p s h, .inl h⟩, fun ⟨hs, h⟩ => ?_⟩
    exact h.resolve_right fun h => hs h.2

theorem ensures_writtenParts (hothers : st.writesOthers = true) (walkTurns : ℕ) (part : Part) :
    Ensures (st.writtenParts walkTurns part) (PartsOf st part) := by
  unfold writtenParts PartsOf
  cases hlog : st.visibleLog part.1 with
  | none => exact Ensures.pure rfl
  | some n =>
    have hresolve : Ensures (st.nodes.resolve walkTurns n part.2) (Logs.Resolved st.nodes n part.2) :=
      fun work pieces rest hres => Logs.resolved_resolve hok.nodes hres
    exact hresolve.bind fun pieces hpieces =>
      Ensures.pure ⟨_, _, parted_of_resolved hok hothers hlog hpieces, rfl⟩

theorem returns_writtenParts (hothers : st.writesOthers = true) (part : Part) :
    ∃ walk, ∀ walkTurns ≥ walk, Returns (st.writtenParts walkTurns part) (PartsOf st part) := by
  unfold writtenParts PartsOf
  cases hlog : st.visibleLog part.1 with
  | none => exact ⟨0, fun _ _ => Returns.pure rfl⟩
  | some n =>
    obtain ⟨walk, hwalk⟩ := Logs.returns_resolve hok.nodes n part.2
    exact ⟨walk, fun walkTurns hle => (hwalk walkTurns hle).bind fun pieces hpieces =>
      Returns.pure ⟨_, _, parted_of_resolved hok hothers hlog hpieces, rfl⟩⟩

section

variable (hord : st.Ordered)

include hord

theorem bounds_of_bottom (hlog : st.visibleLog part.1 = some n)
    (hparted : Parted st part n bottom writes) {definite maybe kept : BitPosition → Prop}
    (hbottom : Bottom st fresh part n definite maybe kept)
    (hdefinite : ∀ p, AnyBit r.1 p ↔ definite p ∨ (∃ s, Logs.Supplied writes s p ∧
      (!fresh && st.mayRetainEntry s) = false) ∧ ¬kept p)
    (hmaybe : ∀ p, AnyBit r.2 p ↔ maybe p ∨
      (∃ s, Logs.Supplied writes s p ∧ (!fresh && st.mayRetainEntry s) = true) ∨
      (∃ s, Logs.Supplied writes s p ∧ (!fresh && st.mayRetainEntry s) = false) ∧ kept p) :
    Bounds st fresh part r := by
  obtain ⟨hlookup, hisLog⟩ := isLog_of_visibleLog hok hlog
  have hholds : ∀ {p o}, Holds st p part.1 o ↔
      ∃ s, Chain st (st.bottomOf n) p part.1 s ∧ Holds st p s o :=
    fun {p o} => holds_iff_chain hok n part.1 hisLog
  have hsettled : ∀ {p}, Chain st (st.bottomOf n) p part.1 (st.bottomOf n) →
      Settled st fresh p part.1 → Settled st fresh p (st.bottomOf n) :=
    fun hchain h => h.imp_right fun h w hw => h w (.bottom hlog hchain hw)
  -- nothing definite where the version below keeps the entry value
  have hbelow : ∀ {p}, Settled st fresh p part.1 → AnyBit r.1 p → part.2.HasBit p →
      Chain st (st.bottomOf n) p part.1 (st.bottomOf n) →
      definite p ∧ ¬KeepsEntry st fresh p (st.bottomOf n) := by
    intro p hs h hp hchain
    have hd : definite p := by
      obtain h | ⟨-, hnot⟩ := (hdefinite p).1 h
      · exact h
      · by_contra hd
        exact hnot ((hbottom.kept_iff p).2 ⟨⟨hp, hchain⟩, hd⟩)
    exact ⟨hd, hbottom.keeps p (hsettled hchain hs) hd⟩
  have hinside : ∀ p, AnyBit r.1 p ∨ AnyBit r.2 p → part.2.HasBit p := by
    intro p h
    have hsupplied : ∀ {s}, Logs.Supplied writes s p → part.2.HasBit p := fun h => ((hparted.writes p _).1 h).1
    rw [hdefinite, hmaybe] at h
    obtain (h | ⟨⟨s, h, -⟩, -⟩) | (h | ⟨s, h, -⟩ | ⟨⟨s, h, -⟩, -⟩) := h
    · exact (hbottom.inside p (.inl h)).1
    · exact hsupplied h
    · exact (hbottom.inside p (.inr h)).1
    · exact hsupplied h
    · exact hsupplied h
  -- a write flagged as holding the entry value meets nothing definite
  have hunmixed : ∀ {p s}, Settled st fresh p part.1 → AnyBit r.1 p → part.2.HasBit p →
      Chain st (st.bottomOf n) p part.1 s → s ≠ st.bottomOf n →
      (!fresh && st.mayRetainEntry s) = false := by
    intro p s hs h hp hchain hne
    by_contra hretain
    rw [Bool.not_eq_false, Bool.and_eq_true, Bool.not_eq_true'] at hretain
    obtain ⟨rfl, hretain⟩ := hretain
    have hclear := hs.resolve_left Bool.false_ne_true
    -- the version below does not keep the entry value at a definite position
    have hlost : ¬(Chain st (st.bottomOf n) p part.1 (st.bottomOf n) ∧
        Holds st p (st.bottomOf n) .entry) := fun ⟨hbottomChain, hentry⟩ =>
      (hbelow hs h hp hbottomChain).2 hentry
    obtain hd | ⟨⟨s', hs', hflag⟩, -⟩ := (hdefinite p).1 h
    · obtain ⟨-, hbottomChain⟩ := hbottom.inside p (.inl hd)
      exact hclear _ (.refl _)
        ⟨n, s, _, hlog, ⟨hchain, hne, hretain⟩, ⟨hbottomChain, .inl rfl⟩, hlost⟩
    · obtain ⟨-, -, hchain'⟩ := (hparted.writes p s').1 hs'
      exact hclear _ (.refl _)
        ⟨n, s, s', hlog, ⟨hchain, hne, hretain⟩, ⟨hchain', .inr hflag⟩, hlost⟩
  refine ⟨hinside, fun p hp h => ?_, fun p hs h hkeeps => ?_, fun p hs ⟨h, h'⟩ => ?_⟩
  · obtain ⟨s, hchain, hv⟩ := hholds.1 h
    rw [hdefinite, hmaybe]
    by_cases hs : s = st.bottomOf n
    · subst hs
      exact (hbottom.covers p ⟨hp, hchain⟩ hv).imp .inl .inl
    · have hsupplied := (hparted.writes p s).2 ⟨hp, hs, hchain⟩
      cases hretain : (!fresh && st.mayRetainEntry s) with
      | true => exact .inr (.inr (.inl ⟨s, hsupplied, hretain⟩))
      | false =>
        by_cases hk : kept p
        · exact .inr (.inr (.inr ⟨⟨s, hsupplied, hretain⟩, hk⟩))
        · exact .inl (.inr ⟨⟨s, hsupplied, hretain⟩, hk⟩)
  · have hp := hinside p (.inl h)
    cases fresh with
    | true =>
      cases hkeeps with
      | entry hv =>
        obtain ⟨-, -, -, hrecorded⟩ := hok.logged part.1 n hlookup
        cases hrecorded with
        | overlay hv' _ _ _ => cases hv.symm.trans hv'
        | join hv' _ _ _ => cases hv.symm.trans hv'
      | join hno _ _ _ => cases hlog.symm.trans hno
      | bottom hlog' hchain hkeeps =>
        cases hlog.symm.trans hlog'
        exact (hbelow hs h hp hchain).2 hkeeps
    | false =>
      obtain ⟨s, hchain, hv⟩ := hholds.1 hkeeps
      by_cases hne : s = st.bottomOf n
      · subst hne
        exact (hbelow hs h hp hchain).2 hv
      · have hflag := hunmixed hs h hp hchain hne
        rw [retains_of_holds hord hv rfl] at hflag
        cases hflag
  · have hp := hinside p (.inl h)
    obtain h' | ⟨s, h', hretain⟩ | ⟨-, hk⟩ := (hmaybe p).1 h'
    · obtain ⟨-, hchain⟩ := hbottom.inside p (.inr h')
      exact hbottom.apart p (hsettled hchain hs) ⟨(hbelow hs h hp hchain).1, h'⟩
    · obtain ⟨-, hne, hchain⟩ := (hparted.writes p s).1 h'
      rw [hunmixed hs h hp hchain hne] at hretain
      cases hretain
    · obtain ⟨⟨-, hchain⟩, hd⟩ := (hbottom.kept_iff p).1 hk
      exact hd (hbelow hs h hp hchain).1

theorem bounds_logged (hlog : st.visibleLog part.1 = some n)
    (hparted : Parted st part n bottom writes)
    (hparts : parts = if st.isEntry (st.bottomOf n) then .logged bottom [] writes
      else .logged [] (bottom.map fun domain => (st.bottomOf n, domain)) writes)
    (hresults : ∀ dependency ∈ parts.dependencies,
      Bounds st fresh dependency (results.regions dependency)) :
    Returns (st.regionsOf fresh part results parts) (Bounds st fresh part) := by
  have hsolid : writes ≠ [] → ∀ b ∈ bottom, b.Inhabited := by
    intro hne
    obtain ⟨piece, hpiece⟩ := exists_mem_of_ne_nil writes hne
    obtain ⟨p, hp⟩ := hparted.solidWrites piece hpiece
    exact hparted.solid ⟨p, ((hparted.writes p _).1 ⟨piece, hpiece, rfl, hp⟩).1⟩
  split at hparts
  · rename_i hentry
    subst hparts
    refine (returns_loggedWrittenRegions (by simpa using hparted.distinct) (by simpa using hsolid)).mono
      fun r hr => bounds_of_bottom hok hord hlog hparted (bottom_entry hparted hentry)
        (fun p => ?_) fun p => ?_
    · simpa using (hr p).1
    · simpa using (hr p).2
  · subst hparts
    have hbounds : ∀ domain ∈ bottom, Bounds st fresh (st.bottomOf n, domain)
        (results.regions (st.bottomOf n, domain)) :=
      fun d hd => hresults _ (mem_map.2 ⟨d, hd, rfl⟩)
    refine (returns_loggedWrittenRegions (by simpa using pairwise_unwritten hparted.distinct results _)
      fun hne b hb => ?_).mono fun r hr => bounds_of_bottom hok hord hlog hparted
        (bottom_below hparted hbounds) (fun p => ?_) fun p => ?_
    · rw [nil_append, flatMap_map, mem_flatMap] at hb
      obtain ⟨d, hd, hb⟩ := hb
      refine inhabited_of_mem_complementAll ?_ hb
      simpa using hsolid hne d hd
    · simpa [AnyBit] using (hr p).1
    · simpa [AnyBit] using (hr p).2

theorem returns_regionsOf (hparts : PartsOf st part parts) (hsound : Sound st fresh results)
    (hdone : ∀ dependency ∈ parts.dependencies, (lookup results dependency).isSome) :
    Returns (st.regionsOf fresh part results parts) (Bounds st fresh part) := by
  unfold PartsOf at hparts
  split at hparts
  · rename_i hlog
    split at hparts
    · rename_i inputs hphi
      subst hparts
      have hmap : (inputs.map fun input => (input, part.2)).map results.regions =
          inputs.map fun input => results.regions (input, part.2) := map_map
      rw [regionsOf, hmap]
      exact bounds_join hlog hphi fun input hin => hsound.regions (hdone _ (mem_map.2 ⟨input, hin, rfl⟩))
    · rename_i hno
      subst hparts
      exact Returns.pure (bounds_leaf hord hlog fun inputs hphi => hno inputs hphi)
  · rename_i n hlog
    obtain ⟨bottom, writes, hparted, heq⟩ := hparts
    exact bounds_logged hok hord hlog hparted heq fun dependency hdep => hsound.regions (hdone dependency hdep)

theorem ensures_settle (hothers : st.writesOthers = true) (walkTurns turns : ℕ) :
    ∀ (stack : List Part) (results : Written), Sound st fresh results →
      Ensures (st.settle walkTurns fresh turns stack results) (Sound st fresh) := by
  induction turns with
  | zero =>
    rintro (_ | ⟨part, stack⟩) results h
    · exact Ensures.pure h
    · exact Ensures.none
  | succ turns ih =>
    rintro (_ | ⟨part, stack⟩) results h
    · exact Ensures.pure h
    unfold settle
    split
    · exact ih stack results h
    refine Ensures.trivial.bind fun _ _ =>
      (ensures_writtenParts hok hothers walkTurns part).bind fun parts hparts => ?_
    dsimp only
    split
    · exact ih _ results h
    · rename_i hmissing
      exact (Ensures.of_returns (returns_regionsOf hok hord hparts h (isSome_of_missing hmissing))).bind
        fun r hr => ih stack _ (h.cons hr)

theorem finishes_of_dependencies (hparts : PartsOf st part parts)
    (hreturns : Returns (st.writtenParts walkTurns part) (· = parts))
    (hdeps : ∀ dependency ∈ parts.dependencies, Finishes st walkTurns fresh dependency) :
    Finishes st walkTurns fresh part := by
  intro stack results P hsound hgo
  have hskip : ∀ results', Sound st fresh results' →
      (∀ other, (lookup results other).isSome → (lookup results' other).isSome) →
      (lookup results' part).isSome → Ends st walkTurns fresh (part :: stack) results' P := by
    intro results' hsound' hkeep hdone
    obtain ⟨enough, h⟩ := hgo results' hsound' hkeep hdone
    refine ends_of_turn ⟨enough, fun turns hle => ?_⟩
    rw [settle, if_pos hdone]
    exact h turns hle
  -- the turn that computes the regions
  have hcompute : ∀ results', Sound st fresh results' →
      (∀ other, (lookup results other).isSome → (lookup results' other).isSome) →
      (∀ dependency ∈ parts.dependencies, (lookup results' dependency).isSome) →
      Ends st walkTurns fresh (part :: stack) results' P := by
    intro results' hsound' hkeep hall
    by_cases hdone : (lookup results' part).isSome
    · exact hskip results' hsound' hkeep hdone
    obtain ⟨r, n, hcost, hr⟩ := returns_regionsOf hok hord hparts hsound' hall
    have hregions : Returns (st.regionsOf fresh part results' parts) (· = r) := ⟨r, n, hcost, rfl⟩
    obtain ⟨enough, h⟩ := hgo ((part, r) :: results') (hsound'.cons hr) (fun other hother => by
        rw [lookup_cons]
        split
        · rfl
        · exact hkeep other hother)
      (by rw [lookup_cons, if_pos rfl]; rfl)
    refine ends_of_turn ⟨enough, fun turns hle => ?_⟩
    rw [settle, if_neg hdone]
    refine (payNat 1).bind fun _ _ => hreturns.bind fun parts' heq => ?_
    have hmissing : (parts.dependencies.filter fun dependency =>
        (lookup results' dependency).isNone) = [] := by
      rw [filter_eq_nil_iff]
      intro dependency hdep
      simpa [Option.isSome_iff_ne_none] using hall dependency hdep
    rw [heq, hmissing, if_neg (by simp)]
    refine hregions.bind ?_
    rintro _ rfl
    exact h turns hle
  by_cases hdone : (lookup results part).isSome
  · exact hskip results hsound (fun _ h => h) hdone
  by_cases hall : (parts.dependencies.filter fun dependency => (lookup results dependency).isNone).isEmpty = false
  · -- first the missing dependencies, then the part again
    obtain ⟨enough, h⟩ := finishes_all (parts.dependencies.filter fun dependency =>
        (lookup results dependency).isNone).reverse
      (fun q hq => hdeps q (mem_filter.1 (mem_reverse.1 hq)).1) (part :: stack) results P hsound
      fun results' hsound' hkeep hmissing => hcompute results' hsound' hkeep fun dependency hdep => by
        by_cases hnone : (lookup results dependency).isSome
        · exact hkeep dependency hnone
        · exact hmissing dependency (mem_reverse.2 (mem_filter.2 ⟨hdep, by simpa using hnone⟩))
    refine ends_of_turn ⟨enough, fun turns hle => ?_⟩
    rw [settle, if_neg hdone]
    refine (payNat 1).bind fun _ _ => hreturns.bind ?_
    rintro _ rfl
    rw [if_pos hall]
    exact h turns hle
  · exact hcompute results hsound (fun _ h => h) (isSome_of_missing hall)

theorem lt_of_dependency
    (hparts : PartsOf st part parts) :
    ∀ dependency ∈ parts.dependencies, dependency.1 < part.1 := by
  intro dependency hdep
  unfold PartsOf at hparts
  split at hparts
  · split at hparts
    · rename_i inputs hphi
      subst hparts
      obtain ⟨input, hin, rfl⟩ := mem_map.1 hdep
      exact hord.inputs part.1 _ hphi input hin
    · subst hparts
      cases hdep
  · rename_i n hlog
    obtain ⟨bottom, writes, -, rfl⟩ := hparts
    split at hdep
    · cases hdep
    · obtain ⟨domain, -, rfl⟩ := mem_map.1 hdep
      exact (hok.logged part.1 n (isLog_of_visibleLog hok hlog).1).2.1

theorem finishes (hothers : st.writesOthers = true) (version : VersionId) :
    ∀ domain, ∃ walk, ∀ walkTurns ≥ walk, Finishes st walkTurns fresh (version, domain) := by
  induction version using Nat.strong_induction_on with
  | h version ih =>
    intro domain
    obtain ⟨walk, hwalk⟩ := returns_writtenParts hok hothers (version, domain)
    obtain ⟨parts, n, hcost, hparts⟩ := hwalk walk (Nat.le_refl _)
    obtain ⟨walk', hwalk'⟩ := exists_walk parts.dependencies
      (Q := fun walkTurns => Finishes st walkTurns fresh) fun dependency hdep =>
        ih dependency.1 (lt_of_dependency hok hord hparts dependency hdep) dependency.2
    refine ⟨max walk walk', fun walkTurns hle => ?_⟩
    have hle' := Nat.le_trans (Nat.le_max_left walk walk') hle
    -- more turns find the same parts
    have hsame : Returns (st.writtenParts walkTurns (version, domain)) (· = parts) :=
      Returns.same ⟨parts, n, hcost, rfl⟩ (hwalk walkTurns hle') fun _ _ => writtenParts_mono hle'
    exact finishes_of_dependencies hok hord hparts hsame
      (hwalk' walkTurns (Nat.le_trans (Nat.le_max_right ..) hle))

end

end

theorem settle_mono {turns turns' : ℕ} (hle : turns ≤ turns') {r : Written × ℕ}
    (h : st.settle walkTurns fresh turns stack results work = some r) :
    st.settle walkTurns fresh turns' stack results work = some r := by
  induction turns generalizing turns' stack results work with
  | zero =>
    cases stack with
    | nil => cases turns' <;> exact h
    | cons part stack => cases h
  | succ turns ih =>
    obtain ⟨turns', rfl⟩ : ∃ k, turns' = k + 1 := ⟨turns' - 1, by omega⟩
    cases stack with
    | nil => exact h
    | cons part stack =>
      unfold settle at h ⊢
      split
      · rename_i hdone
        rw [if_pos hdone] at h
        exact ih (by omega) h
      · rename_i hdone
        rw [if_neg hdone] at h
        obtain ⟨⟨_, work₁⟩, hpay, h⟩ := Option.bind_eq_some_iff.1 h
        obtain ⟨⟨parts, work₂⟩, hparts, h⟩ := Option.bind_eq_some_iff.1 h
        refine Option.bind_eq_some_iff.2 ⟨(_, work₁), hpay,
          Option.bind_eq_some_iff.2 ⟨(parts, work₂), hparts, ?_⟩⟩
        dsimp only at h ⊢
        split
        · rename_i hmissing
          rw [if_pos hmissing] at h
          exact ih (by omega) h
        · rename_i hmissing
          rw [if_neg hmissing] at h
          obtain ⟨⟨regions, work₃⟩, hregions, h⟩ := Option.bind_eq_some_iff.1 h
          exact Option.bind_eq_some_iff.2 ⟨(regions, work₃), hregions, ih (by omega) h⟩

/-- The regions bound what is written, whatever the histories hold. -/
def ExactBounds (fresh : Bool) : Prop :=
  ∀ (ops : List (Op ℕ)) (st : Store ℕ) (version : VersionId) (extent : PositionDomain)
    (walkTurns turns work : ℕ) (definite maybe : List PositionDomain) (rest : ℕ),
    run ops = some st → st.writesOthers = true →
    st.writtenRegions walkTurns turns version extent fresh work = some ((definite, maybe), rest) →
    (∀ p, AnyBit definite p → ¬Holds st p version .entry) ∧
    (∀ p, extent.HasBit p → Holds st p version .written → AnyBit definite p ∨ AnyBit maybe p) ∧
    ∀ p, ¬(AnyBit definite p ∧ AnyBit maybe p)

/-- A copy of a value that is written on one path only. -/
def keptCopy : List (Op ℕ) := [.make (.entry 0), .make .projected, .phi [0, 1],
  .make (.restricted 2 ⟨0, 1, 0, 8⟩)]

/-- Two branches that write the same bits, one of them such a copy. -/
def mixedWrites : List (Op ℕ) := [.make (.entry 0), .make .projected, .phi [0, 1],
  .make (.restricted 2 ⟨0, 1, 0, 2⟩), .overlay 0 3 ⟨0, 1, 0, 2⟩ ⟨0, 1, 0, 8⟩ true, .make .projected,
  .overlay 0 5 ⟨0, 1, 0, 2⟩ ⟨0, 1, 0, 8⟩ true, .merge [4, 6] 2 0]

end Store
end Veryl.Analyzer.CombLoopDetect
