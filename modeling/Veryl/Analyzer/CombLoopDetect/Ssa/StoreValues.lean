import Veryl.Analyzer.CombLoopDetect.Ssa.StoreReads

/-!
What a version holds at a position along the paths to it: the entry value of its
key or a written one. Copies, guards, joins and write histories keep the entry
value; computing from it is a write.
-/

namespace Veryl.Analyzer.CombLoopDetect

open List Option

inductive Origin where
  | entry
  | written
  deriving DecidableEq

namespace Version

variable {K : Type}

/-- A value of its own, whatever it reads. -/
def computes : Version K → Bool
  | .definition | .projected | .replicated => true
  | _ => false

/-- The versions whose values it may keep. -/
def inputs : Version K → List VersionId
  | .phi inputs => inputs
  | .guarded source | .restricted source _ => [source]
  | .overlay below _ above => [below, above]
  | _ => []

/-- Whether it may hold an entry value, from whether its inputs may. -/
def keepsEntry (retains : VersionId → Bool) : Version K → Bool
  | .entry _ | .imported => true
  | version => version.inputs.any retains

end Version

namespace Store

variable {K : Type} {st st' : Store K} {p : BitPosition} {o : Origin} {v n : ℕ}

/-- What a version holds at a position on some path: a path takes one input of a
join, and takes a weak write or leaves it. An import is not looked into, so it may
hold anything. -/
inductive Holds (st : Store K) (p : BitPosition) : VersionId → Origin → Prop
  | entry {v : VersionId} {key : K} : st.versions[v]? = some (.entry key) → Holds st p v .entry
  | computed {v : VersionId} {version : Version K} : st.versions[v]? = some version →
      version.computes = true → Holds st p v .written
  | imported {v : VersionId} {o : Origin} : st.versions[v]? = some .imported → Holds st p v o
  | guarded {v source : VersionId} {o : Origin} : st.versions[v]? = some (.guarded source) →
      Holds st p source o → Holds st p v o
  | restricted {v source : VersionId} {domain : PositionDomain} {o : Origin} :
      st.versions[v]? = some (.restricted source domain) → domain.HasBit p →
      Holds st p source o → Holds st p v o
  | join {v input : VersionId} {inputs : List VersionId} {o : Origin} :
      st.versions[v]? = some (.phi inputs) → input ∈ inputs → Holds st p input o → Holds st p v o
  | above {v below above : VersionId} {retained : Option (List PositionDomain)}
      {region : PositionDomain} {o : Origin} :
      st.versions[v]? = some (.overlay below retained above) → st.region v = some region →
      region.HasBit p → Holds st p above o → Holds st p v o
  | pass {v below above : VersionId} {retained : Option (List PositionDomain)}
      {region : PositionDomain} {o : Origin} :
      st.versions[v]? = some (.overlay below retained above) → st.region v = some region →
      ¬(retained.isSome ∧ region.HasBit p) → Holds st p below o → Holds st p v o

/-- Versions refer to earlier ones, and their flags follow from those of their inputs. -/
structure Ordered (st : Store K) : Prop where
  length : st.retainsEntry.length = st.versions.length
  inputs : ∀ (v : VersionId) (version : Version K), st.versions[v]? = some version →
    ∀ input ∈ version.inputs, input < v
  flags : ∀ (v : VersionId) (version : Version K), st.versions[v]? = some version →
    st.mayRetainEntry v = version.keepsEntry st.mayRetainEntry

/-- The state of a step that made a version. -/
structure Made (st : Store K) (version : Version K) (st' : Store K) : Prop where
  versions : st'.versions = st.versions ++ [version]
  flags : st'.retainsEntry = st.retainsEntry ++ [version.keepsEntry st.mayRetainEntry]
  inputs : ∀ input ∈ version.inputs, input < st.versions.length

theorem flags_pushVersion (st : Store K) (version : Version K) :
    (st.pushVersion version).retainsEntry =
      st.retainsEntry ++ [version.keepsEntry st.mayRetainEntry] := by
  cases version <;> simp [pushVersion, Version.keepsEntry, Version.inputs]

variable {version : Version K}

theorem made_pushVersion (h : ∀ input ∈ version.inputs, input < st.versions.length) :
    Made st version (st.pushVersion version) :=
  ⟨rfl, flags_pushVersion st version, h⟩

theorem keepsEntry_congr {retains retains' : VersionId → Bool}
    (h : ∀ input ∈ version.inputs, retains input = retains' input) :
    version.keepsEntry retains = version.keepsEntry retains' := by
  have hany : version.inputs.any retains = version.inputs.any retains' := by
    rw [Bool.eq_iff_iff, List.any_eq_true, List.any_eq_true]
    constructor
    · rintro ⟨input, hin, hret⟩
      exact ⟨input, hin, h input hin ▸ hret⟩
    · rintro ⟨input, hin, hret⟩
      exact ⟨input, hin, (h input hin).symm ▸ hret⟩
  cases version <;> first | rfl | exact hany

/-- What a step does to the versions: nothing, or it makes one. -/
inductive Makes (st st' : Store K) : Prop
  | same : st'.versions = st.versions → st'.retainsEntry = st.retainsEntry → Makes st st'
  | new {version : Version K} : Made st version st' → Makes st st'

theorem makes_phi {inputs : List VersionId} (h : ∀ input ∈ inputs, input < st.versions.length) :
    Makes st (st.phi inputs).2 := by
  unfold phi
  split
  · exact .same rfl rfl
  · exact .new (made_pushVersion fun input hin => h input (by simpa [Version.inputs] using hin))

theorem makes_merge {bound : List VersionId} {stateCount : ℕ} {fallback : VersionId}
    (hbound : ∀ input ∈ bound, input < st.versions.length)
    (hfallback : fallback < st.versions.length) :
    Makes st (st.merge bound stateCount fallback).2 := by
  obtain ⟨inputs, hlt, heq | ⟨m, nodes, -, heq⟩⟩ := @merge_cases bound stateCount K st fallback hbound hfallback
  · exact heq ▸ makes_phi hlt
  · rw [heq]
    exact .new ⟨rfl, flags_pushVersion st (.phi _), fun input hin =>
      hlt input (by simpa [Version.inputs] using hin)⟩

theorem makes_make (hstep : st.step (.make version) = some st') : Makes st st' := by
  cases version <;> simp only [step, reduceCtorEq, ite_none_right_eq_some, some.injEq] at hstep
  case guarded source =>
    obtain ⟨hsource, rfl⟩ := hstep
    exact .new (made_pushVersion (by simpa [Version.inputs] using hsource))
  case restricted source domain =>
    obtain ⟨hsource, rfl⟩ := hstep
    exact .new (made_pushVersion (by simpa [Version.inputs] using hsource))
  all_goals
    subst hstep
    exact .new (made_pushVersion (by simp [Version.inputs]))

theorem makes_overlay {below above : VersionId} (hbelow : below < st.versions.length)
    (habove : above < st.versions.length) (region extent : PositionDomain)
    (strong : Bool) : Makes st (st.overlay below above region extent strong).2 := by
  unfold overlay
  dsimp only
  generalize (if strong then some (complement extent region) else none) = retained
  split
  · exact .same rfl rfl
  · exact .new ⟨rfl, flags_pushVersion st (.overlay below retained above),
      by simp [Version.inputs, hbelow, habove]⟩

theorem makes_step {op : Op K} (hstep : st.step op = some st') : Makes st st' := by
  cases op with
  | make version => exact makes_make hstep
  | phi inputs =>
    simp only [step, ite_none_right_eq_some, some.injEq, List.all_eq_true,
      decide_eq_true_eq] at hstep
    exact hstep.2 ▸ makes_phi hstep.1
  | overlay below above region extent strong =>
    simp only [step, ite_none_right_eq_some, some.injEq] at hstep
    exact hstep.2 ▸ makes_overlay hstep.1.1 hstep.1.2 region extent strong
  | merge bound stateCount fallback =>
    simp only [step, ite_none_right_eq_some, some.injEq, List.all_eq_true,
      decide_eq_true_eq] at hstep
    exact hstep.2 ▸ makes_merge hstep.1.1 hstep.1.2
  | raiseLogFloor =>
    cases hstep
    exact .same rfl rfl
  | restoreLogFloor floor =>
    cases hstep
    exact .same rfl rfl

theorem Ordered.made (h : st.Ordered) (hmade : Made st version st') : st'.Ordered := by
  have hflag : ∀ v < st.versions.length, st'.mayRetainEntry v = st.mayRetainEntry v := fun v hv => by
    rw [mayRetainEntry, mayRetainEntry, hmade.flags, getElem?_append_left (h.length ▸ hv)]
  have hlt : ∀ {v version'}, st.versions[v]? = some version' → v < st.versions.length :=
    fun hv => (List.getElem?_eq_some_iff.1 hv).1
  -- an entry of the new state is an old one or the last
  have hcases : ∀ {v version'}, st'.versions[v]? = some version' →
      st.versions[v]? = some version' ∨ v = st.versions.length ∧ version' = version := by
    intro v version' hv
    rw [hmade.versions, getElem?_append] at hv
    split at hv
    · exact .inl hv
    · rename_i hle
      rw [getElem?_singleton] at hv
      split at hv
      · cases hv
        exact .inr ⟨by omega, rfl⟩
      · cases hv
  refine ⟨?_, fun v version' hv input hin => ?_, fun v version' hv => ?_⟩
  · rw [hmade.flags, hmade.versions, length_append, length_append, h.length]
    rfl
  · obtain hv | ⟨rfl, rfl⟩ := hcases hv
    · exact h.inputs v version' hv input hin
    · exact hmade.inputs input hin
  · obtain hv | ⟨rfl, rfl⟩ := hcases hv
    · rw [hflag v (hlt hv), h.flags v version' hv]
      exact keepsEntry_congr fun input hin =>
        (hflag input (Nat.lt_trans (h.inputs v version' hv input hin) (hlt hv))).symm
    · rw [keepsEntry_congr fun input hin => hflag input (hmade.inputs input hin), mayRetainEntry,
        hmade.flags, ← h.length, getElem?_concat_length]
      rfl

theorem ordered_step (h : st.Ordered) {op : Op K} (hstep : st.step op = some st') :
    st'.Ordered := by
  cases makes_step hstep with
  | same hversions hflags =>
    have hretain : st'.mayRetainEntry = st.mayRetainEntry := by
      funext v
      rw [mayRetainEntry, mayRetainEntry, hflags]
    exact ⟨by rw [hflags, hversions, h.length], hversions ▸ h.inputs, hversions ▸ hretain ▸ h.flags⟩
  | new hmade => exact h.made hmade

theorem ordered_of_run {ops : List (Op K)} (hrun : run ops = some st) : st.Ordered := by
  have hfold : ∀ (ops : List (Op K)) (st₀ : Store K), st₀.Ordered → ops.foldlM step st₀ = some st →
      st.Ordered := by
    intro ops
    induction ops with
    | nil =>
      intro st₀ h hrun
      cases hrun
      exact h
    | cons op ops ih =>
      intro st₀ h hrun
      obtain ⟨st₁, hstep, hrun⟩ := bind_eq_some_iff.1 hrun
      exact ih st₁ (ordered_step h hstep) hrun
  have hempty : (empty : Store K).Ordered := ⟨rfl, nofun, nofun⟩
  exact hfold ops empty hempty hrun

theorem retains_of_holds (h : st.Ordered) (hv : Holds st p v o) :
    o = .entry → st.mayRetainEntry v = true := by
  have hany : ∀ {v : VersionId} {version : Version K} {input : VersionId},
      st.versions[v]? = some version → input ∈ version.inputs → st.mayRetainEntry input = true →
      st.mayRetainEntry v = true := by
    intro v version input hv hin hret
    rw [h.flags v version hv]
    have : version.inputs.any st.mayRetainEntry = true := List.any_eq_true.2 ⟨input, hin, hret⟩
    cases version <;> first | rfl | exact this
  induction hv with
  | entry hv => exact fun _ => h.flags _ _ hv
  | computed _ _ => exact nofun
  | imported hv => exact fun _ => h.flags _ _ hv
  | guarded hv _ ih => exact fun ho => hany hv (by simp [Version.inputs]) (ih ho)
  | restricted hv _ _ ih => exact fun ho => hany hv (by simp [Version.inputs]) (ih ho)
  | join hv hin _ ih => exact fun ho => hany hv hin (ih ho)
  | above hv _ _ _ ih => exact fun ho => hany hv (by simp [Version.inputs]) (ih ho)
  | pass hv _ _ _ ih => exact fun ho => hany hv (by simp [Version.inputs]) (ih ho)

/-- No history writes the version it starts from. -/
def writesOthers (st : Store K) : Bool :=
  st.logs.all fun (v, n) => match st.versions[v]? with
    | some (.overlay _ _ above) => above ≠ (st.nodes.node n).base
    | _ => true

theorem ne_base_of_writesOthers (h : st.writesOthers = true) {below above : VersionId}
    {retained : Option (List PositionDomain)} (hlog : lookup st.logs v = some n)
    (hv : st.versions[v]? = some (.overlay below retained above)) :
    above ≠ (st.nodes.node n).base := by
  obtain ⟨⟨v', n'⟩, hmem, rfl⟩ := map_eq_some_iff.1 hlog
  have hkey := find?_some hmem
  obtain rfl : v' = v := of_decide_eq_true hkey
  have hall := List.all_eq_true.1 h _ (mem_of_find?_eq_some hmem)
  simp only [hv] at hall
  exact of_decide_eq_true hall

theorem ne_base_of_leads (h : st.Ok) (hothers : st.writesOthers = true) (n : ℕ) :
    ∀ v, st.IsLog n v →
    ∀ s, Logs.Leads st.nodes p 0 n (some s) → s ≠ (st.nodes.node n).base := by
  induction n using Nat.strong_induction_on with
  | h n ih =>
    rintro v ⟨-, -, hlog | ⟨hroot, -⟩⟩ s hs
    · obtain ⟨-, -, -, hrecorded⟩ := h.logged v n hlog
      cases hrecorded with
      | @overlay m below above retained region hversion hlayer hprev hbelow =>
        obtain ⟨m', hm', hlt, hlen, hsame⟩ := h.nodes.prev n _ hlayer
        cases hprev.symm.trans hm'
        have hpos : 0 < (st.nodes.node n).len := by omega
        obtain ⟨hs, -⟩ | ⟨-, hs⟩ := (Logs.leads_write hpos hlayer hprev).1 hs
        · obtain rfl := some.inj hs
          exact ne_base_of_writesOthers hothers hlog hversion
        · exact hsame ▸ ih m hlt below hbelow s hs
      | @join inputs common branches bounds hversion hlayer hinputs hbranches =>
        obtain ⟨b, hb, hs⟩ := Logs.exists_branch_of_leads h.nodes hlayer hs
        obtain ⟨input, -, hbranch⟩ := hbranches b hb
        have hlt := ((h.nodes.merge n _ _ _ hlayer).2.2 b hb).1
        exact h.nodes.base_branch hlayer hb ▸ ih b hlt input hbranch s hs
    · cases (Logs.leads_stop (Nat.le_of_eq (h.nodes.bottom n hroot))).1 hs

theorem region_of_logged {region : PositionDomain} {above : VersionId} {strong : Bool}
    (hlog : lookup st.logs v = some n)
    (hlayer : (st.nodes.node n).layer = some (.write region above strong)) :
    st.region v = some region := by
  rw [Store.region, hlog, bind_some, hlayer]

theorem holds_iff_chain (h : st.Ok) (n : ℕ) : ∀ v, st.IsLog n v →
    (Holds st p v o ↔ ∃ s, Chain st (st.nodes.node n).base p v s ∧ Holds st p s o) := by
  induction n using Nat.strong_induction_on with
  | h n ih =>
    rintro v ⟨-, -, hlog | ⟨-, rfl⟩⟩
    · obtain ⟨-, hbase, -, hrecorded⟩ := h.logged v n hlog
      have hne : v ≠ (st.nodes.node n).base := Nat.ne_of_gt hbase
      cases hrecorded with
      | @overlay m below above retained region hversion hlayer hprev hbelow =>
        obtain ⟨m', hm', hlt, -, hsame⟩ := h.nodes.prev n _ hlayer
        cases hprev.symm.trans hm'
        have hregion := region_of_logged hlog hlayer
        have ih := ih m hlt below hbelow
        rw [hsame] at hne ⊢
        simp only [chain_overlay hne hversion hregion]
        constructor
        · intro hv
          cases hv with
          | above hv hr hp hs =>
            cases hversion.symm.trans hv
            cases hregion.symm.trans hr
            exact ⟨above, .inl ⟨rfl, hp⟩, hs⟩
          | pass hv hr hnot hs =>
            cases hversion.symm.trans hv
            cases hregion.symm.trans hr
            obtain ⟨s, hchain, hs⟩ := ih.1 hs
            exact ⟨s, .inr ⟨hnot, hchain⟩, hs⟩
          | computed hv hc =>
            cases hversion.symm.trans hv
            cases hc
          | entry hv | imported hv | guarded hv _ | restricted hv _ _ | join hv _ _ =>
            cases hversion.symm.trans hv
        · rintro ⟨s, ⟨rfl, hp⟩ | ⟨hnot, hchain⟩, hs⟩
          · exact .above hversion hregion hp hs
          · exact .pass hversion hregion hnot (ih.2 ⟨s, hchain, hs⟩)
      | @join inputs common branches bounds hversion hlayer hinputs hbranches =>
        simp only [chain_phi hne hversion]
        have ih : ∀ input ∈ inputs, (Holds st p input o ↔
            ∃ s, Chain st (st.nodes.node n).base p input s ∧ Holds st p s o) := by
          intro input hin
          obtain ⟨b, hb, hbranch⟩ := hinputs input hin
          rw [← h.nodes.base_branch hlayer hb]
          exact ih b ((h.nodes.merge n _ _ _ hlayer).2.2 b hb).1 input hbranch
        constructor
        · intro hv
          cases hv with
          | join hv hin hs =>
            cases hversion.symm.trans hv
            obtain ⟨s, hchain, hs⟩ := (ih _ hin).1 hs
            exact ⟨s, ⟨_, hin, hchain⟩, hs⟩
          | computed hv hc =>
            cases hversion.symm.trans hv
            cases hc
          | entry hv | imported hv | guarded hv _ | restricted hv _ _ | above hv _ _ _ | pass hv _ _ _ =>
            cases hversion.symm.trans hv
        · rintro ⟨s, ⟨input, hin, hchain⟩, hs⟩
          exact .join hversion hin ((ih input hin).2 ⟨s, hchain, hs⟩)
    · simp only [chain_base, exists_eq_left]

end Store
end Veryl.Analyzer.CombLoopDetect
