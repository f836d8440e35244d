import Veryl.Analyzer.CombLoopDetect.Ssa.LogBuild
import Veryl.Analyzer.CombLoopDetect.Ssa.Store
import Veryl.Analyzer.CombLoopDetect.DagBuilder

/-!
Regional reads find what walking the overlays and joins position by position
finds, down to the version below the history.
-/

namespace Veryl.Analyzer.CombLoopDetect

open Veryl.Library List Option

variable {common : ℕ} {branches : List ℕ} {base s fallback : VersionId}
  {bounds : Option PositionDomain} {nodes : Logs} {p : BitPosition} {inputs bound : List VersionId}
  {version : VersionId} {stateCount : ℕ}

namespace Logs

variable {logs : Logs} {n k : ℕ} {p : BitPosition} {r : Option VersionId}

/-- What a whole history supplies to a position. -/
def Supplies (logs : Logs) (n : ℕ) (p : BitPosition) (version : VersionId) : Prop :=
  Leads logs p 0 n (some version) ∨ Leads logs p 0 n none ∧ version = (logs.node n).base

theorem supplies_root (hl : (logs.node n).len = 0) :
    Supplies logs n p version ↔ version = (logs.node n).base := by
  unfold Supplies
  rw [leads_stop (Nat.le_of_eq hl), leads_stop (Nat.le_of_eq hl)]
  simp

section

variable (h : logs.Ok)

include h

theorem leads_split (hd : Down logs bounds n k) :
    Leads logs p 0 n r ↔ (∃ version, r = some version ∧ Leads logs p (logs.node k).len n r) ∨
      Leads logs p (logs.node k).len n none ∧ Leads logs p 0 k r := by
  induction hd with
  | refl n =>
    have hstop : ∀ r, Leads logs p (logs.node n).len n r ↔ r = none :=
      fun r => leads_stop (Nat.le_refl _)
    simp only [hstop]
    cases r <;> simp
  | @layer n m k l hl hm _ hd ih =>
    obtain ⟨m', hm', hlt, hlen, -⟩ := h.prev n l hl
    cases hm.symm.trans hm'
    have hle := (h.len_le hd).2
    have hlen0 : 0 < (logs.node n).len := by omega
    have hlenk : (logs.node k).len < (logs.node n).len := by omega
    cases l with
    | write region version strong =>
      rw [leads_write hlen0 hl hm, leads_write hlenk hl hm, leads_write hlenk hl hm, ih]
      simp only [reduceCtorEq, false_and, false_or]
      constructor
      · rintro (⟨rfl, hp⟩ | ⟨hnot, ⟨version', rfl, hv⟩ | ⟨hleft, hk⟩⟩)
        · exact .inl ⟨version, rfl, .inl ⟨rfl, hp⟩⟩
        · exact .inl ⟨version', rfl, .inr ⟨hnot, hv⟩⟩
        · exact .inr ⟨⟨hnot, hleft⟩, hk⟩
      · rintro (⟨version', rfl, ⟨heq, hp⟩ | ⟨hnot, hv⟩⟩ | ⟨⟨hnot, hleft⟩, hk⟩)
        · exact .inl ⟨heq, hp⟩
        · exact .inr ⟨hnot, .inl ⟨version', rfl, hv⟩⟩
        · exact .inr ⟨hnot, .inr ⟨hleft, hk⟩⟩
    | merge common branches bounds' =>
      rw [leads_merge hlen0 hl hm, leads_merge hlenk hl hm, leads_merge hlenk hl hm, ih]
      simp only [reduceCtorEq, false_and, exists_false, false_or]
      constructor
      · rintro (hb | ⟨hb, ⟨version', rfl, hv⟩ | ⟨hleft, hk⟩⟩)
        · obtain ⟨version', rfl, hb⟩ := hb
          exact .inl ⟨version', rfl, .inl ⟨version', rfl, hb⟩⟩
        · exact .inl ⟨version', rfl, .inr ⟨hb, hv⟩⟩
        · exact .inr ⟨⟨hb, hleft⟩, hk⟩
      · rintro (⟨version', rfl, hb | ⟨hb, hv⟩⟩ | ⟨⟨hb, hleft⟩, hk⟩)
        · exact .inl hb
        · exact .inr ⟨hb, .inl ⟨version', rfl, hv⟩⟩
        · exact .inr ⟨hb, .inr ⟨hleft, hk⟩⟩

theorem Ok.base_eq (hd : Down logs bounds n k) : (logs.node n).base = (logs.node k).base := by
  induction hd with
  | refl => rfl
  | layer hl hm _ _ ih =>
    obtain ⟨m, hm', -, -, hbase⟩ := h.prev _ _ hl
    cases hm.symm.trans hm'
    rw [hbase, ih]

theorem supplies_write {m : ℕ} {region : PositionDomain} {above : VersionId} {strong : Bool}
    (hl : (logs.node n).layer = some (.write region above strong))
    (hm : (logs.node n).prev = some m)
    (version : VersionId) : Supplies logs n p version ↔ (version = above ∧ region.HasBit p) ∨
      ¬(strong = true ∧ region.HasBit p) ∧ Supplies logs m p version := by
  obtain ⟨m', hm', -, hlen, hbase⟩ := h.prev n _ hl
  cases hm.symm.trans hm'
  have hlt : 0 < (logs.node n).len := by omega
  unfold Supplies
  rw [leads_write hlt hl hm, leads_write hlt hl hm, hbase]
  simp only [reduceCtorEq, false_and, false_or, some.injEq]
  tauto

section

variable (hl : (logs.node n).layer = some (.merge common branches bounds))

include hl

theorem Ok.base_branch {b : ℕ} (hb : b ∈ branches) : (logs.node b).base = (logs.node n).base := by
  obtain ⟨hprev, -, hbranches⟩ := h.merge n common branches bounds hl
  obtain ⟨m, hm, -, -, hbase⟩ := h.prev n _ hl
  cases hprev.symm.trans hm
  obtain ⟨-, k, hdown, -, hmeets⟩ := hbranches b hb
  rw [hbase, h.base_eq hdown]
  rcases hmeets with rfl | ⟨-, hsame⟩
  · rfl
  · exact hsame

theorem leads_branch {b : ℕ} (hb : b ∈ branches) :
    Leads logs p 0 b r ↔ (∃ version, r = some version ∧ Leads logs p (logs.node common).len b r) ∨
      Leads logs p (logs.node common).len b none ∧ Leads logs p 0 common r := by
  obtain ⟨-, k, hdown, hlen, hmeets⟩ := (h.merge n common branches bounds hl).2.2 b hb
  have hk : Leads logs p 0 k r ↔ Leads logs p 0 common r := by
    rcases hmeets with rfl | ⟨hzero, -⟩
    · rfl
    · exact (leads_stop (by omega)).trans (leads_stop (by omega)).symm
  rw [leads_split h hdown, hlen, hk]

theorem exists_branch_of_leads (hv : Leads logs p 0 n (some version)) :
    ∃ b ∈ branches, Leads logs p 0 b (some version) := by
  obtain ⟨hprev, -, -⟩ := h.merge n common branches bounds hl
  obtain ⟨m, -, -, hlen, -⟩ := h.prev n _ hl
  have hlt : 0 < (logs.node n).len := by omega
  rw [leads_merge hlt hl hprev] at hv
  obtain ⟨_, ⟨⟩, b, hb, hv⟩ | ⟨⟨b, hb, hleft⟩, hv⟩ := hv
  · exact ⟨b, hb, (leads_branch h hl hb).2 (.inl ⟨version, rfl, hv⟩)⟩
  · exact ⟨b, hb, (leads_branch h hl hb).2 (.inr ⟨hleft, hv⟩)⟩

theorem supplies_merge (version : VersionId) :
    Supplies logs n p version ↔ ∃ b ∈ branches, Supplies logs b p version := by
  obtain ⟨hprev, -, -⟩ := h.merge n common branches bounds hl
  obtain ⟨m, hm, -, hlen, hbase⟩ := h.prev n _ hl
  have hlt : 0 < (logs.node n).len := by omega
  constructor
  · rintro (hv | ⟨hnone, rfl⟩)
    · obtain ⟨b, hb, hv⟩ := exists_branch_of_leads h hl hv
      exact ⟨b, hb, .inl hv⟩
    · rw [leads_merge hlt hl hprev] at hnone
      simp only [reduceCtorEq, false_and, exists_false, false_or] at hnone
      obtain ⟨⟨b, hb, hleft⟩, hnone⟩ := hnone
      exact ⟨b, hb, .inr ⟨(leads_branch h hl hb).2 (.inr ⟨hleft, hnone⟩), (h.base_branch hl hb).symm⟩⟩
  · unfold Supplies
    rw [leads_merge hlt hl hprev, leads_merge hlt hl hprev]
    simp only [reduceCtorEq, false_and, exists_false, false_or, some.injEq, exists_eq_left']
    rintro ⟨b, hb, hv | ⟨hnone, rfl⟩⟩
    · obtain ⟨_, -, hv⟩ | ⟨hleft, hv⟩ := (leads_branch h hl hb).1 hv
      · exact .inl (.inl ⟨b, hb, hv⟩)
      · exact .inl (.inr ⟨⟨b, hb, hleft⟩, hv⟩)
    · obtain ⟨_, heq, -⟩ | ⟨hleft, hnone⟩ := (leads_branch h hl hb).1 hnone
      · cases heq
      · exact .inr ⟨⟨⟨b, hb, hleft⟩, hnone⟩, h.base_branch hl hb⟩

end

end

end Logs

namespace Store

variable {K : Type} {st : Store K}

/-- The region a write was made at. -/
def region (st : Store K) (version : VersionId) : Option PositionDomain :=
  (lookup st.logs version).bind fun n => match (st.nodes.node n).layer with
    | some (.write region _ _) => some region
    | _ => none

/-- Walking the overlays and joins from a version down to `base`: a position is
supplied by a write at its region, passes a write unless it is strong there, and
passes a join through any of its inputs. -/
inductive Chain (st : Store K) (base : VersionId) (p : BitPosition) : VersionId → VersionId → Prop
  | base : Chain st base p base base
  | above {v below above : VersionId} {retained region} : v ≠ base →
      st.versions[v]? = some (.overlay below retained above) → st.region v = some region →
      region.HasBit p → Chain st base p v above
  | pass {v below above s : VersionId} {retained region} : v ≠ base →
      st.versions[v]? = some (.overlay below retained above) → st.region v = some region →
      ¬(retained.isSome ∧ region.HasBit p) → Chain st base p below s → Chain st base p v s
  | join {v input s : VersionId} {inputs} : v ≠ base → st.versions[v]? = some (.phi inputs) →
      input ∈ inputs → Chain st base p input s → Chain st base p v s

theorem chain_base : Chain st base p base s ↔ s = base := by
  constructor
  · intro h
    cases h with
    | base => rfl
    | above hne _ _ _ => exact absurd rfl hne
    | pass hne _ _ _ _ => exact absurd rfl hne
    | join hne _ _ _ => exact absurd rfl hne
  · rintro rfl
    exact .base

theorem chain_overlay {v below above : VersionId}
    {retained : Option (List PositionDomain)} {region : PositionDomain} (hne : v ≠ base)
    (hv : st.versions[v]? = some (.overlay below retained above))
    (hregion : st.region v = some region) :
    Chain st base p v s ↔ (s = above ∧ region.HasBit p) ∨
      ¬(retained.isSome = true ∧ region.HasBit p) ∧ Chain st base p below s := by
  constructor
  · intro h
    cases h with
    | base => exact absurd rfl hne
    | above _ hv' hregion' hp =>
      cases hv.symm.trans hv'
      cases hregion.symm.trans hregion'
      exact .inl ⟨rfl, hp⟩
    | pass _ hv' hregion' hnot h =>
      cases hv.symm.trans hv'
      cases hregion.symm.trans hregion'
      exact .inr ⟨hnot, h⟩
    | join _ hv' _ _ => cases hv.symm.trans hv'
  · rintro (⟨rfl, hp⟩ | ⟨hnot, h⟩)
    · exact .above hne hv hregion hp
    · exact .pass hne hv hregion hnot h

theorem chain_phi {v : VersionId} (hne : v ≠ base) (hv : st.versions[v]? = some (.phi inputs)) :
    Chain st base p v s ↔ ∃ input ∈ inputs, Chain st base p input s := by
  constructor
  · intro h
    cases h with
    | base => exact absurd rfl hne
    | above _ hv' _ _ => cases hv.symm.trans hv'
    | pass _ hv' _ _ _ => cases hv.symm.trans hv'
    | join _ hv' hin h =>
      cases hv.symm.trans hv'
      exact ⟨_, hin, h⟩
  · rintro ⟨input, hin, h⟩
    exact .join hne hv hin h

/-- A log of a version: its history or a new log that starts at it. -/
def IsLog (st : Store K) (n : ℕ) (version : VersionId) : Prop :=
  n < st.nodes.length ∧ version < st.versions.length ∧ (lookup st.logs version = some n ∨
      (st.nodes.node n).layer = none ∧ (st.nodes.node n).base = version)

/-- What the history of a version records. -/
inductive Recorded (st : Store K) (n : ℕ) (version : VersionId) : Prop
  | overlay {m : ℕ} {below above : VersionId} {retained} {region : PositionDomain} :
      st.versions[version]? = some (.overlay below retained above) →
      (st.nodes.node n).layer = some (.write region above retained.isSome) →
      (st.nodes.node n).prev = some m → st.IsLog m below → Recorded st n version
  | join {inputs : List VersionId} {common : ℕ} {branches bounds} :
      st.versions[version]? = some (.phi inputs) →
      (st.nodes.node n).layer = some (.merge common branches bounds) →
      (∀ input ∈ inputs, ∃ b ∈ branches, st.IsLog b input) →
      (∀ b ∈ branches, ∃ input ∈ inputs, st.IsLog b input) → Recorded st n version

/-- The histories say how versions were made. -/
structure Ok (st : Store K) : Prop where
  nodes : st.nodes.Ok
  logged : ∀ version n, lookup st.logs version = some n → n < st.nodes.length ∧
    (st.nodes.node n).base < version ∧ version < st.versions.length ∧ st.Recorded n version

theorem supplies_iff_chain (h : st.Ok) (n : ℕ) : ∀ version, st.IsLog n version →
      (st.nodes.Supplies n p s ↔ Chain st (st.nodes.node n).base p version s) := by
  induction n using Nat.strong_induction_on with
  | h n ih =>
    rintro version ⟨-, -, hlog | ⟨hroot, rfl⟩⟩
    · obtain ⟨-, hbase, -, hrecorded⟩ := h.logged version n hlog
      have hne : version ≠ (st.nodes.node n).base := Nat.ne_of_gt hbase
      cases hrecorded with
      | @overlay m below above retained region hversion hlayer hprev hbelow =>
        obtain ⟨m', hm', hlt, -, hsame⟩ := h.nodes.prev n _ hlayer
        cases hprev.symm.trans hm'
        have hregion : st.region version = some region := by
          rw [Store.region, hlog, bind_some, hlayer]
        rw [Logs.supplies_write h.nodes hlayer hprev, chain_overlay hne hversion hregion,
          ih m hlt below hbelow, hsame]
      | @join inputs common branches bounds hversion hlayer hinputs hbranches =>
        rw [Logs.supplies_merge h.nodes hlayer, chain_phi hne hversion]
        have hbranch : ∀ b ∈ branches, b < n ∧ (st.nodes.node b).base = (st.nodes.node n).base :=
          fun b hb => ⟨((h.nodes.merge n _ _ _ hlayer).2.2 b hb).1, h.nodes.base_branch hlayer hb⟩
        constructor
        · rintro ⟨b, hb, hs⟩
          obtain ⟨input, hin, hlog'⟩ := hbranches b hb
          obtain ⟨hlt, hsame⟩ := hbranch b hb
          exact ⟨input, hin, hsame ▸ (ih b hlt input hlog').1 hs⟩
        · rintro ⟨input, hin, hs⟩
          obtain ⟨b, hb, hlog'⟩ := hinputs input hin
          obtain ⟨hlt, hsame⟩ := hbranch b hb
          exact ⟨b, hb, (ih b hlt input hlog').2 (hsame ▸ hs)⟩
    · rw [Logs.supplies_root (h.nodes.bottom n hroot), chain_base]

/-- Earlier versions and their logs stay as they are. -/
structure Grows (st st' : Store K) : Prop where
  length : st.versions.length ≤ st'.versions.length
  versions : ∀ v < st.versions.length, st'.versions[v]? = st.versions[v]?
  logs : ∀ v < st.versions.length, lookup st'.logs v = lookup st.logs v
  nodes : Logs.Grows st.nodes st'.nodes

variable {st' : Store K} {n : ℕ} {version : VersionId}

theorem IsLog.grows (hgrows : Grows st st') (h : st.IsLog n version) : st'.IsLog n version := by
  obtain ⟨hn, hv, hlog⟩ := h
  refine ⟨Nat.lt_of_lt_of_le hn hgrows.nodes.1, Nat.lt_of_lt_of_le hv hgrows.length, ?_⟩
  rw [hgrows.logs version hv, hgrows.nodes.2 n hn]
  exact hlog

theorem Recorded.grows (hgrows : Grows st st') (hn : n < st.nodes.length)
    (hv : version < st.versions.length) (h : st.Recorded n version) : st'.Recorded n version := by
  cases h with
  | overlay hversion hlayer hprev hbelow =>
    rw [← hgrows.versions version hv] at hversion
    rw [← hgrows.nodes.2 n hn] at hlayer hprev
    exact .overlay hversion hlayer hprev (hbelow.grows hgrows)
  | join hversion hlayer hinputs hbranches =>
    rw [← hgrows.versions version hv] at hversion
    rw [← hgrows.nodes.2 n hn] at hlayer
    refine .join hversion hlayer (fun input hin => ?_) fun b hb => ?_
    · obtain ⟨b, hb, hlog⟩ := hinputs input hin
      exact ⟨b, hb, hlog.grows hgrows⟩
    · obtain ⟨input, hin, hlog⟩ := hbranches b hb
      exact ⟨input, hin, hlog.grows hgrows⟩

theorem ok_empty : (empty : Store K).Ok := by
  refine ⟨⟨fun n _ => ?_, fun n l hl => ?_, fun n j hj => ?_, fun n _ _ _ hl => ?_⟩,
    fun version n hlog => by cases hlog⟩
  · rfl
  · cases hl
  · cases hj
  · cases hl

theorem grows_pushVersion (st : Store K) (version : Version K) :
    Grows st (st.pushVersion version) :=
  ⟨by simp [pushVersion], fun v hv => List.getElem?_append_left hv, fun _ _ => rfl, .refl _⟩

/-- What `log` gives in an arena that grew. -/
structure LogsOf (st : Store K) (nodes : Logs) (version : VersionId) (r : ℕ × Logs) : Prop where
  ok : r.2.Ok
  grows : Logs.Grows nodes r.2
  lt : r.1 < r.2.length
  base : (r.2.node r.1).base ≤ version
  log : lookup st.logs version = some r.1 ∨ (r.2.node r.1).layer = none ∧ (r.2.node r.1).base = version

theorem LogsOf.isLog {nodes' : Logs} {r : ℕ × Logs} (h : LogsOf st nodes version r)
    (hv : version < st.versions.length) (hgrows : Logs.Grows r.2 nodes') (hst : Grows st st')
    (heq : st'.nodes = nodes') : st'.IsLog r.1 version := by
  subst heq
  refine ⟨Nat.lt_of_lt_of_le h.lt hgrows.1, Nat.lt_of_lt_of_le hv hst.length, ?_⟩
  rw [hst.logs version hv, hgrows.2 r.1 h.lt]
  exact h.log

theorem grows_record (st : Store K) (version : Version K) (hnodes : Logs.Grows st.nodes nodes)
    (n : ℕ) : Grows st { st.pushVersion version with
      nodes := nodes
      logs := (st.versions.length, n) :: st.logs } := by
  refine ⟨by simp [pushVersion], fun v hv => List.getElem?_append_left hv, fun v hv => ?_, hnodes⟩
  rw [lookup_cons, if_neg (Nat.ne_of_gt hv)]

theorem exists_of_forall₂ {α β : Type} {R : α → β → Prop} {l : List α} {l' : List β}
    (h : List.Forall₂ R l l') : (∀ a ∈ l, ∃ b ∈ l', R a b) ∧ ∀ b ∈ l', ∃ a ∈ l, R a b := by
  induction h with
  | nil => simp
  | cons hab _ ih =>
    simp only [mem_cons, forall_eq_or_imp, exists_eq_or_imp]
    exact ⟨⟨.inl hab, fun a ha => .inr (ih.1 a ha)⟩, .inl hab, fun b hb => .inr (ih.2 b hb)⟩

theorem merge_cases {fallback : VersionId}
    (hbound : ∀ input ∈ bound, input < st.versions.length)
    (hfallback : fallback < st.versions.length) :
    ∃ inputs : List VersionId, (∀ input ∈ inputs, input < st.versions.length) ∧
      ((st.merge bound stateCount fallback).2 = (st.phi inputs).2 ∨
        ∃ n nodes, st.mergeLog inputs fallback = some (n, nodes) ∧
          (st.merge bound stateCount fallback).2 =
            { st.pushVersion (.phi (inputs.insertionSort (· ≤ ·)).dedup) with
              nodes := nodes
              logs := (st.versions.length, n) :: st.logs }) := by
  unfold merge
  generalize hinputs : (if bound.length < stateCount then bound ++ [fallback] else bound) = inputs
  have hlt : ∀ input ∈ inputs, input < st.versions.length := by
    intro input hin
    rw [← hinputs] at hin
    split at hin
    · rcases mem_append.1 hin with hin | hin
      · exact hbound input hin
      · exact mem_singleton.1 hin ▸ hfallback
    · exact hbound input hin
  refine ⟨inputs, hlt, ?_⟩
  dsimp only
  cases hlog : st.mergeLog inputs fallback with
  | none => exact .inl rfl
  | some r =>
    dsimp only
    split
    · rename_i hnew
      refine .inr ⟨r.1, r.2, rfl, ?_⟩
      unfold phi at hnew ⊢
      split at hnew
      · -- a single input is not a new version
        rename_i input heq
        have hin : input ∈ (inputs.insertionSort (· ≤ ·)).dedup := heq ▸ mem_singleton_self input
        have := hlt input (by simpa using hin)
        exact absurd hnew (Nat.not_le_of_lt this)
      · rfl
    · exact .inl rfl

section

variable (h : st.Ok)

include h

theorem Ok.grows (hgrows : Grows st st') (hnodes : st'.nodes.Ok)
    (hnew : ∀ version n, lookup st'.logs version = some n → st.versions.length ≤ version →
      n < st'.nodes.length ∧ (st'.nodes.node n).base < version ∧ version < st'.versions.length ∧
        st'.Recorded n version) : st'.Ok where
  nodes := hnodes
  logged version n hlog := by
    by_cases hv : version < st.versions.length
    · rw [hgrows.logs version hv] at hlog
      obtain ⟨hn, hbase, -, hrecorded⟩ := h.logged version n hlog
      refine ⟨Nat.lt_of_lt_of_le hn hgrows.nodes.1, ?_, Nat.lt_of_lt_of_le hv hgrows.length,
        hrecorded.grows hgrows hn hv⟩
      rw [hgrows.nodes.2 n hn]
      exact hbase
    · exact hnew version n hlog (Nat.le_of_not_lt hv)

theorem lookup_of_le (hv : st.versions.length ≤ version) : lookup st.logs version = none := by
  cases hlog : lookup st.logs version with
  | none => rfl
  | some n => exact absurd (h.logged version n hlog).2.2.1 (Nat.not_lt_of_le hv)

theorem ok_pushVersion (version : Version K) : (st.pushVersion version).Ok :=
  h.grows (grows_pushVersion st version) h.nodes fun v n hlog hle => by
    exact absurd ((lookup_of_le h hle).symm.trans hlog) nofun

theorem logsOf_log (hnodes : nodes.Ok) (hgrows : Logs.Grows st.nodes nodes)
    (version : VersionId) : LogsOf st nodes version (st.log nodes version) := by
  have hroot : LogsOf st nodes version (nodes.root version) := by
    have hnode : (nodes.root version).2.node (nodes.root version).1 =
        ⟨none, none, none, version, 0, none⟩ := Logs.node_append_length _ _
    exact ⟨Logs.ok_root hnodes version, Logs.grows_append _ _, by simp [Logs.root],
      by rw [hnode], .inr (by rw [hnode]; exact ⟨rfl, rfl⟩)⟩
  unfold log
  split
  · rename_i n hlog
    split
    · obtain ⟨hn, hbase, -⟩ := h.logged version n hlog
      refine ⟨hnodes, .refl _, Nat.lt_of_lt_of_le hn hgrows.1, ?_, .inl hlog⟩
      rw [hgrows.2 n hn]
      exact Nat.le_of_lt hbase
    · exact hroot
  · exact hroot

theorem ok_record (version : Version K) (hnodes : Logs.Grows st.nodes nodes)
    (hok : nodes.Ok) {n : ℕ} (hn : n < nodes.length)
    (hbase : (nodes.node n).base < st.versions.length)
    (hrecorded : Recorded { st.pushVersion version with
      nodes := nodes
      logs := (st.versions.length, n) :: st.logs } n st.versions.length) :
    Ok { st.pushVersion version with
      nodes := nodes
      logs := (st.versions.length, n) :: st.logs } := by
  refine h.grows (grows_record st version hnodes n) hok fun v n' hlog hle => ?_
  rw [lookup_cons] at hlog
  split at hlog
  · rename_i heq
    obtain rfl : st.versions.length = v := heq
    obtain rfl := some.inj hlog
    exact ⟨hn, hbase, by simp [pushVersion], hrecorded⟩
  · rw [lookup_of_le h hle] at hlog
    cases hlog

theorem ok_overlay {below : VersionId} (hbelow : below < st.versions.length)
    (above : VersionId) (region extent : PositionDomain) (strong : Bool) :
    (st.overlay below above region extent strong).2.Ok := by
  unfold overlay
  generalize hretained : (if strong then some (complement extent region) else none) = retained
  have hstrong : strong = retained.isSome := by
    rw [← hretained]
    cases strong <;> rfl
  dsimp only
  split
  · exact h
  have hlog := logsOf_log h h.nodes (.refl _) below
  have hpush := Logs.pushed_push (st.log st.nodes below).2 (st.log st.nodes below).1
    (.write region above strong)
  have hgrows := hlog.grows.trans hpush.grows
  refine ok_record h _ hgrows (Logs.ok_push hlog.ok hlog.lt fun _ _ _ heq => by cases heq) hpush.lt ?_
    (.overlay ?_ (hpush.layer.trans (by rw [hstrong])) hpush.prev
      (hlog.isLog hbelow hpush.grows (grows_record st _ hgrows _) rfl))
  · rw [hpush.base]
    exact Nat.lt_of_le_of_lt hlog.base hbelow
  · exact List.getElem?_concat_length

theorem ok_phi (inputs : List VersionId) : (st.phi inputs).2.Ok := by
  unfold phi
  split
  · exact h
  · exact ok_pushVersion h _

theorem logsOf_branchLogs (inputs : List VersionId) : ∀ {nodes : Logs}, nodes.Ok →
    Logs.Grows st.nodes nodes → (st.branchLogs nodes inputs).2.Ok ∧
      Logs.Grows nodes (st.branchLogs nodes inputs).2 ∧
      List.Forall₂ (fun input b => b < (st.branchLogs nodes inputs).2.length ∧
        (lookup st.logs input = some b ∨ ((st.branchLogs nodes inputs).2.node b).layer = none ∧
            ((st.branchLogs nodes inputs).2.node b).base = input))
        inputs (st.branchLogs nodes inputs).1 := by
  induction inputs with
  | nil => exact fun hnodes _ => ⟨hnodes, .refl _, .nil⟩
  | cons input inputs ih =>
    intro nodes hnodes hgrows
    have hlog := logsOf_log h hnodes hgrows input
    obtain ⟨hok, hgrows', hall⟩ := ih hlog.ok (hgrows.trans hlog.grows)
    have hbranch : lookup st.logs input = some (st.log nodes input).1 ∨
        ((st.branchLogs (st.log nodes input).2 inputs).2.node (st.log nodes input).1).layer = none ∧
          ((st.branchLogs (st.log nodes input).2 inputs).2.node (st.log nodes input).1).base =
            input := by
      rw [hgrows'.2 _ hlog.lt]
      exact hlog.log
    exact ⟨hok, hlog.grows.trans hgrows',
      .cons ⟨Nat.lt_of_lt_of_le hlog.lt hgrows'.1, hbranch⟩ hall⟩

theorem mergeLog_spec {n : ℕ} (hmerge : st.mergeLog inputs fallback = some (n, nodes)) :
    nodes.Ok ∧ Logs.Grows st.nodes nodes ∧ n < nodes.length ∧ (nodes.node n).base ≤ fallback ∧
      ∃ common branches bounds, (nodes.node n).layer = some (.merge common branches bounds) ∧
        List.Forall₂ (fun input b => b < nodes.length ∧ (lookup st.logs input = some b ∨
          (nodes.node b).layer = none ∧ (nodes.node b).base = input)) inputs branches := by
  unfold mergeLog at hmerge
  split at hmerge
  · rename_i hany
    have hlog := logsOf_log h h.nodes (.refl _) fallback
    obtain ⟨hok, hgrows, hall⟩ := logsOf_branchLogs h inputs hlog.ok hlog.grows
    dsimp only at hmerge
    generalize st.branchLogs (st.log st.nodes fallback).2 inputs = r at hok hgrows hall hmerge
    obtain ⟨branches, nodes'⟩ := r
    have hne : branches ≠ [] := by
      rintro rfl
      cases hall
      cases hany
    have hcommon := Nat.lt_of_lt_of_le hlog.lt hgrows.1
    obtain ⟨hok', bounds, heq⟩ := Logs.ok_merge hok hcommon hne (fun b hb => by
      obtain ⟨input, -, hlt, -⟩ := (exists_of_forall₂ hall).2 b hb
      exact hlt) hmerge
    have hpush := Logs.pushed_push nodes' (st.log st.nodes fallback).1
      (.merge (st.log st.nodes fallback).1 branches bounds)
    rw [← heq] at hpush
    refine ⟨hok', hlog.grows.trans (hgrows.trans hpush.grows), hpush.lt, ?_, _, branches, bounds,
      hpush.layer, hall.imp fun input b hb => ⟨Nat.lt_of_lt_of_le hb.1 hpush.grows.1, ?_⟩⟩
    · rw [hpush.base, hgrows.2 _ hlog.lt]
      exact hlog.base
    · rw [hpush.grows.2 b hb.1]
      exact hb.2
  · cases hmerge

theorem ok_merge
    (hbound : ∀ input ∈ bound, input < st.versions.length)
    (hfallback : fallback < st.versions.length) :
    (st.merge bound stateCount fallback).2.Ok := by
  obtain ⟨inputs, hlt, heq | ⟨n, nodes, hlog, heq⟩⟩ := merge_cases hbound hfallback
  · exact heq ▸ ok_phi h inputs
  rw [heq]
  have hmem : ∀ input, input ∈ (inputs.insertionSort (· ≤ ·)).dedup ↔ input ∈ inputs := by
    simp
  obtain ⟨hok, hgrows, hn, hbase, common, branches, bounds, hlayer, hall⟩ := mergeLog_spec h hlog
  have hst := grows_record st (.phi (inputs.insertionSort (· ≤ ·)).dedup) hgrows n
  have hisLog : ∀ input ∈ inputs, ∀ b, (b < nodes.length ∧ (lookup st.logs input = some b ∨
      (nodes.node b).layer = none ∧ (nodes.node b).base = input)) →
      IsLog { st.pushVersion (.phi (inputs.insertionSort (· ≤ ·)).dedup) with
        nodes := nodes
        logs := (st.versions.length, n) :: st.logs } b input := by
    intro input hin b ⟨hb, hlog⟩
    refine ⟨hb, Nat.lt_of_lt_of_le (hlt input hin) hst.length, ?_⟩
    rw [hst.logs input (hlt input hin)]
    exact hlog
  refine ok_record h _ hgrows hok hn (Nat.lt_of_le_of_lt hbase hfallback)
    (.join List.getElem?_concat_length hlayer (fun input hin => ?_) fun b hb => ?_)
  · obtain ⟨b, hb, hb'⟩ := (exists_of_forall₂ hall).1 input ((hmem input).1 hin)
    exact ⟨b, hb, hisLog input ((hmem input).1 hin) b hb'⟩
  · obtain ⟨input, hin, hb'⟩ := (exists_of_forall₂ hall).2 b hb
    exact ⟨input, (hmem input).2 hin, hisLog input hin b hb'⟩

theorem ok_floor (floor : VersionId) : Ok { st with logFloor := floor } :=
  h.grows ⟨Nat.le_refl _, fun _ _ => rfl, fun _ _ => rfl, .refl _⟩ h.nodes
    fun _ _ hlog hle => absurd ((lookup_of_le h hle).symm.trans hlog) nofun

theorem ok_step {op : Op K} (hstep : st.step op = some st') : st'.Ok := by
  cases op with
  | make version =>
    have hpush : st' = st.pushVersion version := by
      cases version <;> simp only [step, reduceCtorEq, ite_none_right_eq_some,
        some.injEq] at hstep <;> grind
    exact hpush ▸ ok_pushVersion h version
  | phi inputs =>
    simp only [step, ite_none_right_eq_some, some.injEq] at hstep
    exact hstep.2 ▸ ok_phi h inputs
  | overlay below above region extent strong =>
    simp only [step, ite_none_right_eq_some, some.injEq] at hstep
    exact hstep.2 ▸ ok_overlay h hstep.1.1 above region extent strong
  | merge bound stateCount fallback =>
    simp only [step, ite_none_right_eq_some, some.injEq, List.all_eq_true,
      decide_eq_true_eq] at hstep
    exact hstep.2 ▸ ok_merge h hstep.1.1 hstep.1.2
  | raiseLogFloor =>
    cases hstep
    exact ok_floor h _
  | restoreLogFloor floor =>
    cases hstep
    exact ok_floor h _

end

/-- A step that changes which versions regional reads see through. -/
def Op.movesLogFloor : Op K → Bool
  | .raiseLogFloor | .restoreLogFloor _ => true
  | _ => false

/-- All logs of an arena start at versions without a history. -/
def Bottoms (st : Store K) (nodes : Logs) : Prop := ∀ n < nodes.length,
  (nodes.node n).base < st.versions.length ∧ lookup st.logs (nodes.node n).base = none

theorem bottoms_push (h : Bottoms st nodes) {tip : ℕ} (htip : tip < nodes.length)
    (layer : Layer) : Bottoms st (nodes.push tip layer).2 := by
  intro n hn
  have hpush := Logs.pushed_push nodes tip layer
  by_cases hold : n < nodes.length
  · rw [hpush.grows.2 n hold]
    exact h n hold
  · have heq : n = (nodes.push tip layer).1 := by
      simp only [Logs.push, length_append, length_singleton] at hn ⊢
      omega
    rw [heq, hpush.base]
    exact h tip htip

theorem bottoms_log (h : Bottoms st nodes) (hfloor : st.logFloor = 0)
    (hv : version < st.versions.length) : Bottoms st (st.log nodes version).2 := by
  unfold log
  split
  · rw [hfloor, if_pos (Nat.zero_le _)]
    exact h
  · rename_i hnone
    intro n hn
    by_cases hold : n < nodes.length
    · rw [show (nodes.root version).2.node n = nodes.node n from Logs.node_append_lt hold]
      exact h n hold
    · have heq : n = nodes.length := by
        simp only [Logs.root, length_append, length_singleton] at hn
        omega
      rw [heq, show (nodes.root version).2.node nodes.length = ⟨none, none, none, version, 0, none⟩ from
        Logs.node_append_length _ _]
      exact ⟨hv, hnone⟩

theorem bottoms_branchLogs (hfloor : st.logFloor = 0) (inputs : List VersionId)
    (hinputs : ∀ input ∈ inputs, input < st.versions.length) :
    ∀ {nodes : Logs}, Bottoms st nodes → Bottoms st (st.branchLogs nodes inputs).2 := by
  induction inputs with
  | nil => exact fun h => h
  | cons input inputs ih =>
    intro nodes h
    exact ih (fun i hi => hinputs i (mem_cons_of_mem _ hi))
      (bottoms_log h hfloor (hinputs input (mem_cons_self ..)))

theorem bottoms_record (h : Bottoms st nodes) (version : Version K) (n : ℕ) :
    Bottoms { st.pushVersion version with
      nodes := nodes
      logs := (st.versions.length, n) :: st.logs } nodes := by
  intro m hm
  obtain ⟨hlt, hnone⟩ := h m hm
  refine ⟨Nat.lt_of_lt_of_le hlt (by simp [pushVersion]), ?_⟩
  rw [lookup_cons, if_neg (Nat.ne_of_gt hlt)]
  exact hnone

theorem bottoms_pushVersion (h : Bottoms st st.nodes) (version : Version K) :
    Bottoms (st.pushVersion version) (st.pushVersion version).nodes :=
  fun n hn => ⟨Nat.lt_of_lt_of_le (h n hn).1 (by simp [pushVersion]), (h n hn).2⟩

theorem bottoms_phi (h : Bottoms st st.nodes) (inputs : List VersionId) :
    (st.phi inputs).2.logFloor = st.logFloor ∧
      Bottoms (st.phi inputs).2 (st.phi inputs).2.nodes := by
  unfold phi
  split
  · exact ⟨rfl, h⟩
  · exact ⟨rfl, bottoms_pushVersion h _⟩

theorem bottoms_mergeLog (hok : st.Ok) (hfloor : st.logFloor = 0) (h : Bottoms st st.nodes)
    (hinputs : ∀ input ∈ inputs, input < st.versions.length)
    (hfallback : fallback < st.versions.length)
    (hmerge : st.mergeLog inputs fallback = some (n, nodes)) : Bottoms st nodes := by
  unfold mergeLog at hmerge
  split at hmerge
  · have hlog := logsOf_log hok hok.nodes (.refl _) fallback
    obtain ⟨-, hgrows, -⟩ := logsOf_branchLogs hok inputs hlog.ok hlog.grows
    have hbottoms := bottoms_branchLogs hfloor inputs hinputs (bottoms_log h hfloor hfallback)
    obtain ⟨bounds, -, heq⟩ := map_eq_some_iff.1 hmerge
    have := bottoms_push hbottoms (Nat.lt_of_lt_of_le hlog.lt hgrows.1)
      (.merge (st.log st.nodes fallback).1 (st.branchLogs (st.log st.nodes fallback).2 inputs).1 bounds)
    rwa [show nodes = _ from (congrArg Prod.snd heq).symm]
  · cases hmerge

theorem bottoms_step (hok : st.Ok) (hfloor : st.logFloor = 0) (h : Bottoms st st.nodes) {op : Op K}
    (hop : op.movesLogFloor = false) (hstep : st.step op = some st') :
    st'.logFloor = 0 ∧ Bottoms st' st'.nodes := by
  cases op with
  | make version =>
    have hpush : st' = st.pushVersion version := by
      cases version <;> simp only [step, reduceCtorEq, ite_none_right_eq_some,
        some.injEq] at hstep <;> grind
    subst hpush
    exact ⟨hfloor, bottoms_pushVersion h _⟩
  | phi inputs =>
    simp only [step, ite_none_right_eq_some, some.injEq] at hstep
    obtain ⟨-, rfl⟩ := hstep
    exact hfloor ▸ bottoms_phi h inputs
  | overlay below above region extent strong =>
    simp only [step, ite_none_right_eq_some, some.injEq] at hstep
    obtain ⟨⟨hbelow, -⟩, rfl⟩ := hstep
    unfold overlay
    dsimp only
    generalize (if strong then some (complement extent region) else none) = retained
    split
    · exact ⟨hfloor, h⟩
    · have hlog := logsOf_log hok hok.nodes (.refl _) below
      exact ⟨hfloor, bottoms_record (bottoms_push (bottoms_log h hfloor hbelow) hlog.lt _) _ _⟩
  | merge bound stateCount fallback =>
    simp only [step, ite_none_right_eq_some, some.injEq, List.all_eq_true,
      decide_eq_true_eq] at hstep
    obtain ⟨⟨hbound, hfallback⟩, rfl⟩ := hstep
    obtain ⟨inputs, hlt, heq | ⟨n, nodes, hlog, heq⟩⟩ := merge_cases hbound hfallback
    · rw [heq]
      exact hfloor ▸ bottoms_phi h inputs
    · rw [heq]
      exact ⟨hfloor, bottoms_record (bottoms_mergeLog hok hfloor h hlt hfallback hlog) _ _⟩
  | raiseLogFloor => cases hop
  | restoreLogFloor floor => cases hop

theorem ok_of_run {ops : List (Op K)} (hrun : run ops = some st) :
    st.Ok ∧ ((∀ op ∈ ops, op.movesLogFloor = false) → Bottoms st st.nodes) := by
  have hfold : ∀ (ops : List (Op K)) (st₀ : Store K), st₀.Ok → ops.foldlM step st₀ = some st →
      st.Ok ∧ ((∀ op ∈ ops, op.movesLogFloor = false) → st₀.logFloor = 0 → Bottoms st₀ st₀.nodes →
        Bottoms st st.nodes) := by
    intro ops
    induction ops with
    | nil =>
      intro st₀ h hrun
      cases hrun
      exact ⟨h, fun _ _ h => h⟩
    | cons op ops ih =>
      intro st₀ h hrun
      obtain ⟨st₁, hstep, hrun⟩ := bind_eq_some_iff.1 hrun
      obtain ⟨hok, hbottoms⟩ := ih st₁ (ok_step h hstep) hrun
      refine ⟨hok, fun hops hfloor h₀ => ?_⟩
      obtain ⟨hfloor', h₁⟩ := bottoms_step h hfloor h₀ (hops op (mem_cons_self ..)) hstep
      exact hbottoms (fun op hop => hops op (mem_cons_of_mem _ hop)) hfloor' h₁
  obtain ⟨hok, hbottoms⟩ := hfold ops empty ok_empty hrun
  exact ⟨hok, fun hops => hbottoms hops rfl fun n hn => absurd hn (Nat.not_lt_zero n)⟩

/-- A regional read of a version's log with enough turns and work returns what the
overlays and joins supply to each position of the region, down to the version
below the log; the boxes of the walk stay disjoint. While the log floor is not
moved, the version below has no history itself. -/
theorem resolve_exact {ops : List (Op K)} (hrun : run ops = some st) (hlog : st.IsLog n version)
    (region : PositionDomain) :
    (∃ enough work, ∀ turns ≥ enough, ∀ work' ≥ work,
      (st.nodes.resolve turns n region work').isSome) ∧
    (∀ turns work pieces rest, st.nodes.resolve turns n region work = some (pieces, rest) →
      ∀ p s, Logs.Supplied pieces s p ↔
        region.HasBit p ∧ Chain st (st.nodes.node n).base p version s) ∧
    (∀ w, st.nodes.Reached n region w → Logs.DisjointBoxes w) ∧
    ((∀ op ∈ ops, op.movesLogFloor = false) → lookup st.logs (st.nodes.node n).base = none) := by
  obtain ⟨hok, hbottoms⟩ := ok_of_run hrun
  refine ⟨Logs.resolve_enough hok.nodes n region, fun turns work pieces rest hres p s => ?_,
    fun w => Logs.disjointBoxes_of_reached, fun hops => (hbottoms hops n hlog.1).2⟩
  rw [(Logs.resolved_resolve hok.nodes hres).supplied]
  exact and_congr_right fun _ => supplies_iff_chain hok n version hlog

/-- Two branches that write overlapping bits of a value, and their join. -/
def joinedWrites : List (Op ℕ) := [.make (.entry 0), .make .projected, .make .projected,
  .overlay 0 1 ⟨0, 1, 0, 3⟩ ⟨0, 1, 0, 8⟩ true, .overlay 0 2 ⟨0, 1, 2, 3⟩ ⟨0, 1, 0, 8⟩ true,
  .merge [3, 4] 2 0]

theorem resolve_exact_joined : ∃ st n, run joinedWrites = some st ∧ st.IsLog n 5 ∧
    ∀ region turns work pieces rest, st.nodes.resolve turns n region work = some (pieces, rest) →
      ∀ p s, Logs.Supplied pieces s p ↔
        region.HasBit p ∧ Chain st (st.nodes.node n).base p 5 s := by
  have hlog : (run joinedWrites).map (fun st => (lookup st.logs 5, st.nodes.length, st.versions.length)) =
      some (some 5, 6, 6) := by rfl
  obtain ⟨st, hrun, heq⟩ := map_eq_some_iff.1 hlog
  obtain ⟨hlookup, hrest⟩ := Prod.mk.inj heq
  obtain ⟨hnodes, hversions⟩ := Prod.mk.inj hrest
  have hisLog : st.IsLog 5 5 := ⟨hnodes ▸ Nat.lt_succ_self 5, hversions ▸ Nat.lt_succ_self 5, .inl hlookup⟩
  exact ⟨st, 5, hrun, hisLog, fun region => (resolve_exact hrun hisLog region).2.1⟩

end Store
end Veryl.Analyzer.CombLoopDetect
