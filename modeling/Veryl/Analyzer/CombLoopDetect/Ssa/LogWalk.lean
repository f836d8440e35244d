import Veryl.Analyzer.CombLoopDetect.Ssa.Log
import Veryl.Analyzer.CombLoopDetect.Ssa.FragmentsExact

/-!
The walk of an indexed history finds what a walk of one position through all
layers finds, and its sets of fragments stay disjoint.
-/

namespace Veryl.Analyzer.CombLoopDetect

open Veryl.Library List Fragments

variable {strong : Bool} {common k turns' : ℕ} {branches : List ℕ} {returned : Option Fragments}
  {found : List PositionDomain} {rest : List WalkFrame}

variable {version : VersionId} {pieces pieces' : List Piece} {f : Fragments} {tip turns work : ℕ}
  {region : PositionDomain} {bounds : Option PositionDomain}

namespace Logs

variable {logs : Logs} {n m stop : ℕ} {p : BitPosition} {r : Option VersionId}

/-- A bit of bounds that may be empty. -/
def InBounds (bounds : Option PositionDomain) (p : BitPosition) : Prop := ∃ d ∈ bounds, d.HasBit p

/-- From a node down to an ancestor, all passed layers within some bounds. -/
inductive Down (logs : Logs) (bounds : Option PositionDomain) : ℕ → ℕ → Prop
  | refl (n : ℕ) : Down logs bounds n n
  | layer {n m k : ℕ} {l : Layer} : (logs.node n).layer = some l → (logs.node n).prev = some m →
      (∀ p, InBounds l.bounds p → InBounds bounds p) → Down logs bounds m k → Down logs bounds n k

/-- One position walked down to a length without the index: a version that supplies it, or nothing
when it passes all layers. -/
inductive Leads (logs : Logs) (p : BitPosition) : ℕ → ℕ → Option VersionId → Prop
  | stop {stop n : ℕ} : (logs.node n).len ≤ stop → Leads logs p stop n none
  | found {stop n : ℕ} {region version strong} : stop < (logs.node n).len →
      (logs.node n).layer = some (.write region version strong) → region.HasBit p →
      Leads logs p stop n (some version)
  | pass {stop n m : ℕ} {region version strong} {r : Option VersionId} : stop < (logs.node n).len →
      (logs.node n).layer = some (.write region version strong) → (logs.node n).prev = some m →
      ¬(strong = true ∧ region.HasBit p) → Leads logs p stop m r → Leads logs p stop n r
  | branch {stop n : ℕ} {common branches bounds b version} : stop < (logs.node n).len →
      (logs.node n).layer = some (.merge common branches bounds) → b ∈ branches →
      Leads logs p (logs.node common).len b (some version) → Leads logs p stop n (some version)
  | join {stop n m : ℕ} {common branches bounds b} {r : Option VersionId} : stop < (logs.node n).len →
      (logs.node n).layer = some (.merge common branches bounds) → b ∈ branches →
      Leads logs p (logs.node common).len b none → (logs.node n).prev = some m →
      Leads logs p stop m r → Leads logs p stop n r

/-- The bottom of a branch is the common log. -/
def Meets (logs : Logs) (common node : ℕ) : Prop :=
  node = common ∨ (logs.node common).len = 0 ∧ (logs.node node).base = (logs.node common).base

/-- What `push` and `merge` build. -/
structure Ok (logs : Logs) : Prop where
  bottom : ∀ n, (logs.node n).layer = none → (logs.node n).len = 0
  prev : ∀ n l, (logs.node n).layer = some l → ∃ m, (logs.node n).prev = some m ∧ m < n ∧
    (logs.node n).len = (logs.node m).len + 1 ∧ (logs.node n).base = (logs.node m).base
  jump : ∀ n j, (logs.node n).jump = some j → j < n ∧ Down logs (logs.node n).bounds n j
  merge : ∀ n common branches bounds, (logs.node n).layer = some (.merge common branches bounds) →
    (logs.node n).prev = some common ∧ branches ≠ [] ∧ ∀ b ∈ branches, b < n ∧
      ∃ k, Down logs bounds b k ∧ (logs.node k).len = (logs.node common).len ∧ Meets logs common k

theorem leads_stop (h : (logs.node n).len ≤ stop) : Leads logs p stop n r ↔ r = none := by
  constructor
  · intro hl
    cases hl with
    | stop _ => rfl
    | found hlt _ _ => omega
    | pass hlt _ _ _ _ => omega
    | branch hlt _ _ _ => omega
    | join hlt _ _ _ _ _ => omega
  · rintro rfl
    exact .stop h

theorem leads_write (hlt : stop < (logs.node n).len)
    (hl : (logs.node n).layer = some (.write region version strong))
    (hm : (logs.node n).prev = some m) : Leads logs p stop n r ↔
      (r = some version ∧ region.HasBit p) ∨
        ¬(strong = true ∧ region.HasBit p) ∧ Leads logs p stop m r := by
  constructor
  · intro h
    cases h with
    | stop hle => omega
    | found _ hl' hp =>
      cases hl.symm.trans hl'
      exact .inl ⟨rfl, hp⟩
    | pass _ hl' hm' hnot h =>
      cases hl.symm.trans hl'
      cases hm.symm.trans hm'
      exact .inr ⟨hnot, h⟩
    | branch _ hl' _ _ => cases hl.symm.trans hl'
    | join _ hl' _ _ _ _ => cases hl.symm.trans hl'
  · rintro (⟨rfl, hp⟩ | ⟨hnot, h⟩)
    · exact .found hlt hl hp
    · exact .pass hlt hl hm hnot h

theorem leads_merge (hlt : stop < (logs.node n).len)
    (hl : (logs.node n).layer = some (.merge common branches bounds))
    (hm : (logs.node n).prev = some m) : Leads logs p stop n r ↔
      (∃ version, r = some version ∧ ∃ b ∈ branches, Leads logs p (logs.node common).len b r) ∨
        (∃ b ∈ branches, Leads logs p (logs.node common).len b none) ∧ Leads logs p stop m r := by
  constructor
  · intro h
    cases h with
    | stop hle => omega
    | found _ hl' _ => cases hl.symm.trans hl'
    | pass _ hl' _ _ _ => cases hl.symm.trans hl'
    | branch _ hl' hb h =>
      cases hl.symm.trans hl'
      exact .inl ⟨_, rfl, _, hb, h⟩
    | join _ hl' hb hleft hm' h =>
      cases hl.symm.trans hl'
      cases hm.symm.trans hm'
      exact .inr ⟨⟨_, hb, hleft⟩, h⟩
  · rintro (⟨version, rfl, b, hb, h⟩ | ⟨⟨b, hb, hleft⟩, h⟩)
    · exact .branch hlt hl hb h
    · exact .join hlt hl hb hleft hm h

theorem Ok.len_le (h : logs.Ok) {n : ℕ}
    (hd : Down logs bounds n k) : k ≤ n ∧ (logs.node k).len ≤ (logs.node n).len := by
  induction hd with
  | refl n => exact ⟨Nat.le_refl _, Nat.le_refl _⟩
  | layer hl hm _ _ ih =>
    obtain ⟨m, hm', hlt, hlen, -⟩ := h.prev _ _ hl
    cases hm.symm.trans hm'
    omega

theorem leads_down (h : logs.Ok)
    (hd : Down logs bounds n k) (hp : ¬InBounds bounds p) (hstop : stop ≤ (logs.node k).len) :
    Leads logs p stop n r ↔ Leads logs p stop k r := by
  induction n using Nat.strong_induction_on generalizing bounds k stop r with
  | h n ih =>
    cases hd with
    | refl => rfl
    | @layer _ m _ l hl hm hin hd =>
      obtain ⟨m', hm', hlt, hlen, -⟩ := h.prev n l hl
      cases hm.symm.trans hm'
      have hle := h.len_le hd
      have hlt' : stop < (logs.node n).len := by omega
      rw [← ih m hlt hd hp hstop]
      have hpl : ¬InBounds l.bounds p := fun hpl => hp (hin p hpl)
      cases l with
      | write region version strong =>
        have hnot : ¬region.HasBit p := fun hpr => hpl ⟨region, rfl, hpr⟩
        rw [leads_write hlt' hl hm]
        simp [hnot]
      | merge common branches bounds' =>
        obtain ⟨-, hne, hbranches⟩ := h.merge n _ _ _ hl
        have hbranch : ∀ b ∈ branches, ∀ r',
            Leads logs p (logs.node common).len b r' ↔ r' = none := by
          intro b hb r'
          obtain ⟨hbn, k', hd', hlen', -⟩ := hbranches b hb
          rw [ih b hbn hd' hpl (Nat.le_of_eq hlen'.symm), leads_stop (Nat.le_of_eq hlen')]
        obtain ⟨b, hb⟩ := exists_mem_of_ne_nil branches hne
        rw [leads_merge hlt' hl hm]
        constructor
        · rintro (⟨version, rfl, b', hb', hl'⟩ | ⟨-, hl'⟩)
          · cases (hbranch b' hb' _).1 hl'
          · exact hl'
        · exact fun hl' => .inr ⟨⟨b, hb, (hbranch b hb none).2 rfl⟩, hl'⟩

/-- A position that a version supplies. -/
def Supplied (pieces : List Piece) (version : VersionId) (p : BitPosition) : Prop :=
  ∃ piece ∈ pieces, piece.version = version ∧ piece.domain.HasBit p

theorem supplied_append :
    Supplied (pieces ++ pieces') version p ↔ Supplied pieces version p ∨ Supplied pieces' version p := by
  simp only [Supplied, mem_append, or_and_right, exists_or]

/-- No piece is empty. -/
def SolidPieces (pieces : List Piece) : Prop := ∀ piece ∈ pieces, piece.domain.Inhabited

theorem SolidPieces.append (h : SolidPieces pieces)
    (h' : SolidPieces pieces') : SolidPieces (pieces ++ pieces') := by
  intro piece hpiece
  obtain hpiece | hpiece := mem_append.1 hpiece
  · exact h piece hpiece
  · exact h' piece hpiece

/-- With enough turns a walk ends as stated. -/
def Ends (logs : Logs) (w : Walk) (P : Fragments × List Piece → Prop) : Prop :=
  ∃ enough, ∀ turns ≥ enough, Returns (logs.walk turns w) P

/-- A turn ends the walk as stated or leads to a walk that does. -/
def Continues (logs : Logs) (P : Fragments × List Piece → Prop) :
    (Fragments × List Piece) ⊕ Walk → Prop
  | .inl done => P done
  | .inr w => Ends logs w P

variable {P : Fragments × List Piece → Prop} {w : Walk}

theorem ends_of_turn (h : Returns (logs.turn w) (Continues logs P)) : Ends logs w P := by
  obtain ⟨x, n, hcost, hx⟩ := h
  have hturn : Returns (logs.turn w) (· = x) := ⟨x, n, hcost, rfl⟩
  cases x with
  | inl done =>
    refine ⟨1, fun turns hle => ?_⟩
    obtain ⟨k, rfl⟩ : ∃ k, turns = k + 1 := ⟨turns - 1, by omega⟩
    refine hturn.bind ?_
    rintro _ rfl
    exact Returns.pure hx
  | inr w' =>
    obtain ⟨enough, hw'⟩ := hx
    refine ⟨enough + 1, fun turns hle => ?_⟩
    obtain ⟨k, rfl⟩ : ∃ k, turns = k + 1 := ⟨turns - 1, by omega⟩
    refine hturn.bind ?_
    rintro _ rfl
    exact hw' k (by omega)

/-- What the walk of a history leaves and records. -/
structure Walked (logs : Logs) (stop n : ℕ) (f : Fragments) (pieces : List Piece) (left : Fragments)
    (pieces' : List Piece) : Prop where
  ok : left.Ok
  solid : f.Solid → left.Solid
  solidPieces : SolidPieces pieces → SolidPieces pieces'
  left : ∀ p, left.Has p ↔ f.Has p ∧ Leads logs p stop n none
  pieces : ∀ p version, Supplied pieces' version p ↔
    Supplied pieces version p ∨ f.Has p ∧ Leads logs p stop n (some version)

/-- What comes after the walk of a history. -/
def Resumes (logs : Logs) (rest : List WalkFrame) (P : Fragments × List Piece → Prop)
    (left : Fragments) (pieces : List Piece) : Prop :=
  match rest with
  | [] => P (left, pieces)
  | _ :: _ => Ends logs ⟨rest, some left, pieces⟩ P

/-- The walk of a history comes to its end. -/
def Ending (logs : Logs) (n : ℕ) : Prop :=
  ∀ (stop : ℕ) (f : Fragments) (rest : List WalkFrame) (pieces : List Piece)
    (P : Fragments × List Piece → Prop), f.Ok → f.Proper →
    (∀ left pieces', Walked logs stop n f pieces left pieces' → Resumes logs rest P left pieces') →
    Ends logs ⟨⟨n, stop, f, none⟩ :: rest, none, pieces⟩ P

theorem returns_rejoin {g : Fragments} (hg : g.Regular)
    (hreturned : ∀ left ∈ returned, left.Regular) : Returns (rejoin g returned) fun g' =>
      g'.Regular ∧ ∀ p, g'.Has p ↔ g.Has p ∨ ∃ left ∈ returned, left.Has p := by
  cases returned with
  | none => exact Returns.pure ⟨hg, by simp⟩
  | some left =>
    refine (Returns.foldlM (Q := fun done (g' : Fragments) => g'.Regular ∧
      ∀ p, g'.Has p ↔ g.Has p ∨ AnyBit done p) ⟨hg, by simp [AnyBit]⟩ ?_).mono
      fun g' hg' => ⟨hg'.1, fun p => ?_⟩
    · rintro done b rest g' hl ⟨hg', hbits⟩
      have hb : b ∈ left.boxes := by rw [hl]; simp
      refine (returns_add hg' ((hreturned left rfl).solid b hb)).mono
        fun g'' hg'' => ⟨hg''.1, fun p => ?_⟩
      rw [hg''.2, hbits]
      simp only [AnyBit, mem_append, mem_singleton, or_and_right, exists_or,
        exists_eq_left, or_assoc]
    · rw [hg'.2]
      simp [Fragments.Has]

theorem supplied_found (hfound : f.Meets region found) {version' : VersionId} :
    Supplied (found.filterMap fun fragment => (intersection fragment region).map
      fun domain => ⟨version, domain⟩) version' p ↔
        version = version' ∧ f.Has p ∧ region.HasBit p := by
  simp only [Supplied, mem_filterMap, Option.map_eq_some_iff]
  constructor
  · rintro ⟨_, ⟨b, hb, d, hd, rfl⟩, rfl, hp⟩
    obtain ⟨hpb, hpr⟩ := exists_mem_intersection.1 ⟨d, hd, hp⟩
    exact ⟨rfl, ⟨b, ((hfound.2 b).1 hb).1, hpb⟩, hpr⟩
  · rintro ⟨rfl, ⟨b, hb, hpb⟩, hpr⟩
    obtain ⟨d, hd, hp⟩ := exists_mem_intersection.2 ⟨hpb, hpr⟩
    exact ⟨⟨version, d⟩, ⟨b, (hfound.2 b).2 ⟨hb, fun hapart => hapart p ⟨hpb, hpr⟩⟩, d, hd, rfl⟩,
      rfl, hp⟩

theorem solidPieces_found :
    SolidPieces (found.filterMap fun fragment => (intersection fragment region).map
      fun domain => ⟨version, domain⟩) := by
  intro piece hpiece
  obtain ⟨fragment, -, hpiece⟩ := mem_filterMap.1 hpiece
  obtain ⟨domain, hdomain, rfl⟩ := Option.map_eq_some_iff.1 hpiece
  exact (mem_rectangle hdomain).1

theorem returns_overwrite (hf : f.Ok) (hproper : f.Proper) (region : PositionDomain)
    (strong : Bool) : Returns (overwrite f region strong) fun f' =>
      f'.Ok ∧ f'.Proper ∧ (f.Solid → f'.Solid) ∧
        ∀ p, f'.Has p ↔ f.Has p ∧ ¬(strong = true ∧ region.HasBit p) := by
  cases strong with
  | true =>
    refine (returns_subtract hf hproper).mono fun f' hf' => ⟨hf'.1, hf'.2.1, hf'.2.2.1, ?_⟩
    simpa using hf'.2.2.2
  | false => exact Returns.pure ⟨hf, hproper, id, by simp⟩

theorem fragments_start (region : PositionDomain) : (empty.insert region).Ok ∧
    (empty.insert region).Proper ∧ ∀ p, (empty.insert region).Has p ↔ region.HasBit p := by
  refine ⟨ok_insert ok_empty fun b hb => absurd hb not_mem_nil, .inr ⟨region, rfl⟩, fun p => ?_⟩
  change AnyBit [region] p ↔ _
  simp [AnyBit]

/-- What a read returns: the writes it passed and what the base supplies. -/
def Resolved (logs : Logs) (tip : ℕ) (region : PositionDomain) (pieces : List Piece) : Prop :=
  ∃ (writes : List Piece) (left : Fragments),
    pieces = (writes ++ left.boxes.map fun domain => ⟨(logs.node tip).base, domain⟩) ∧
    left.Ok ∧ (region.Inhabited → left.Solid) ∧ SolidPieces writes ∧
    (∀ p, left.Has p ↔ region.HasBit p ∧ Leads logs p 0 tip none) ∧
    ∀ p version, Supplied writes version p ↔ region.HasBit p ∧ Leads logs p 0 tip (some version)

theorem Resolved.supplied
    (h : Resolved logs tip region pieces) (p : BitPosition) (version : VersionId) :
    Supplied pieces version p ↔ region.HasBit p ∧ (Leads logs p 0 tip (some version) ∨
      Leads logs p 0 tip none ∧ version = (logs.node tip).base) := by
  obtain ⟨writes, left, rfl, -, -, -, hleft, hwrites⟩ := h
  have hbase : Supplied (left.boxes.map fun domain => ⟨(logs.node tip).base, domain⟩) version p ↔
      version = (logs.node tip).base ∧ left.Has p := by
    simp only [Supplied, mem_map, exists_exists_and_eq_and, Fragments.Has, AnyBit]
    constructor
    · rintro ⟨b, hb, rfl, hp⟩
      exact ⟨rfl, b, hb, hp⟩
    · rintro ⟨rfl, b, hb, hp⟩
      exact ⟨b, hb, rfl, hp⟩
  rw [supplied_append, hbase, hwrites, hleft]
  tauto

theorem walk_mono (hle : turns ≤ turns') {w : Walk} {rest : ℕ}
    {done : Fragments × List Piece} (h : logs.walk turns w work = some (done, rest)) :
    logs.walk turns' w work = some (done, rest) := by
  induction turns generalizing turns' w work with
  | zero => cases h
  | succ turns ih =>
    obtain ⟨turns', rfl⟩ : ∃ k, turns' = k + 1 := ⟨turns' - 1, by omega⟩
    obtain ⟨⟨x, work'⟩, hx, h⟩ := Option.bind_eq_some_iff.1 h
    refine Option.bind_eq_some_iff.2 ⟨(x, work'), hx, ?_⟩
    cases x with
    | inl done' => exact h
    | inr w' => exact ih (by omega) h

theorem resolve_mono (hle : turns ≤ turns') {rest : ℕ}
    (h : logs.resolve turns tip region work = some (pieces, rest)) :
    logs.resolve turns' tip region work = some (pieces, rest) := by
  obtain ⟨⟨done, work'⟩, hdone, h⟩ := Option.bind_eq_some_iff.1 h
  exact Option.bind_eq_some_iff.2 ⟨(done, work'), walk_mono hle hdone, h⟩

section

variable (h : logs.Ok)

include h

theorem returns_skip (hf : f.Ok) (hproper : f.Proper)
    (join : Option JoinWalk) : Returns (logs.skip ⟨n, stop, f, join⟩) fun r => ∀ j ∈ r, j < n ∧
      ∀ p, f.Has p → ∀ r', Leads logs p stop n r' ↔ Leads logs p stop j r' := by
  unfold skip
  cases hjump : (logs.node n).jump with
  | none => exact Returns.pure (by simp)
  | some j =>
    dsimp only
    split
    · rename_i hstop
      obtain ⟨hlt, hdown⟩ := h.jump n j hjump
      refine Returns.bind (returns_overlaps hf hproper _) fun meets hmeets =>
        Returns.pure ?_
      cases meets with
      | true => simp
      | false =>
        intro j' hj'
        obtain rfl := Option.some.inj hj'
        refine ⟨hlt, fun p hp r' => leads_down h hdown ?_ hstop⟩
        rintro ⟨region, hregion, hbit⟩
        exact absurd (hmeets.2 ⟨region, hregion, p, hp, hbit⟩) Bool.false_ne_true
    · exact Returns.pure (by simp)

theorem ends_join (ih : ∀ k < n, Ending logs k)
    (hl : (logs.node n).layer = some (.merge common branches bounds))
    (hlt : stop < (logs.node n).len) {inside outside : Fragments} (hinside : inside.Regular)
    (hsplit : ∀ p, f.Has p ↔ inside.Has p ∨ outside.Has p)
    (houtside : ∀ p, outside.Has p → ¬InBounds bounds p)
    (hresume : ∀ left pieces', Walked logs stop n f pieces left pieces' →
      Resumes logs rest P left pieces') (count : ℕ) :
    ∀ (i : ℕ) (g : Fragments) (returned : Option Fragments) (pieces' : List Piece),
      i + count = branches.length → g.Regular → (∀ left ∈ returned, left.Regular) →
      (SolidPieces pieces → SolidPieces pieces') →
      (∀ p, (g.Has p ∨ ∃ left ∈ returned, left.Has p) ↔ outside.Has p ∨
        inside.Has p ∧ ∃ b ∈ branches.take i, Leads logs p (logs.node common).len b none) →
      (∀ p version, Supplied pieces' version p ↔ Supplied pieces version p ∨
        inside.Has p ∧ ∃ b ∈ branches.take i, Leads logs p (logs.node common).len b (some version)) →
      Ends logs ⟨⟨n, stop, g, some ⟨branches, i, (logs.node common).len, inside⟩⟩ :: rest, returned,
        pieces'⟩ P := by
  obtain ⟨hprev, -, hbranches⟩ := h.merge n common branches bounds hl
  induction count with
  | zero =>
    intro i g returned pieces' hi hg hreturned hsolid hleft hpieces
    have htake : branches.take i = branches := take_of_length_le (by omega)
    rw [htake] at hleft hpieces
    refine ends_of_turn (Returns.bind (returns_rejoin hg hreturned) fun g' hg' => ?_)
    rw [getElem?_eq_none (show branches.length ≤ i by omega), hprev]
    obtain ⟨m, hm, hmn, hlen, -⟩ := h.prev n _ hl
    cases hprev.symm.trans hm
    refine Returns.pure (ih common hmn stop g' rest pieces' P hg'.1.toOk (.inl hg'.1.solid)
      fun left pieces'' hwalked => hresume left pieces'' ⟨hwalked.ok,
        fun _ => hwalked.solid hg'.1.solid, fun h => hwalked.solidPieces (hsolid h),
        fun p => ?_, fun p version => ?_⟩)
    · have hpass : outside.Has p →
          (Leads logs p stop n none ↔ Leads logs p stop common none) := fun hp =>
        leads_down h (.layer hl hprev (fun _ hb => hb) (.refl _)) (houtside p hp) (by omega)
      have hmerge := leads_merge (p := p) (r := none) hlt hl hprev
      simp only [reduceCtorEq, false_and, exists_false, false_or] at hmerge
      rw [hwalked.left, hg'.2, hleft, hsplit]
      constructor
      · rintro ⟨hp | ⟨hp, hjoin⟩, hbelow⟩
        · exact ⟨.inr hp, (hpass hp).2 hbelow⟩
        · exact ⟨.inl hp, hmerge.2 ⟨hjoin, hbelow⟩⟩
      · rintro ⟨hp | hp, hleads⟩
        · exact ⟨.inr ⟨hp, (hmerge.1 hleads).1⟩, (hmerge.1 hleads).2⟩
        · exact ⟨.inl hp, (hpass hp).1 hleads⟩
    · have hpass : outside.Has p → (Leads logs p stop n (some version) ↔
          Leads logs p stop common (some version)) := fun hp =>
        leads_down h (.layer hl hprev (fun _ hb => hb) (.refl _)) (houtside p hp) (by omega)
      have hmerge := leads_merge (p := p) (r := some version) hlt hl hprev
      simp only [Option.some.injEq, exists_eq_left'] at hmerge
      rw [hwalked.pieces, hpieces, hg'.2, hleft, hsplit]
      constructor
      · rintro ((hold | ⟨hp, hjoin⟩) | ⟨hp | ⟨hp, hjoin⟩, hbelow⟩)
        · exact .inl hold
        · exact .inr ⟨.inl hp, hmerge.2 (.inl hjoin)⟩
        · exact .inr ⟨.inr hp, (hpass hp).2 hbelow⟩
        · exact .inr ⟨.inl hp, hmerge.2 (.inr ⟨hjoin, hbelow⟩)⟩
      · rintro (hold | ⟨hp | hp, hleads⟩)
        · exact .inl (.inl hold)
        · rcases hmerge.1 hleads with hjoin | ⟨hjoin, hbelow⟩
          · exact .inl (.inr ⟨hp, hjoin⟩)
          · exact .inr ⟨.inr ⟨hp, hjoin⟩, hbelow⟩
        · exact .inr ⟨.inl hp, (hpass hp).1 hleads⟩
  | succ count ihc =>
    intro i g returned pieces' hi hg hreturned hsolid hleft hpieces
    have hlti : i < branches.length := by omega
    refine ends_of_turn (Returns.bind (returns_rejoin hg hreturned) fun g' hg' => ?_)
    rw [getElem?_eq_getElem hlti]
    have hb := hbranches _ (getElem_mem hlti)
    refine Returns.pure (ih _ hb.1 _ inside (_ :: rest) pieces' P hinside.toOk (.inl hinside.solid)
      fun left pieces'' hwalked => ihc (i + 1) g' (some left) pieces'' (by omega) hg'.1
        ?_ (fun h => hwalked.solidPieces (hsolid h)) (fun p => ?_) fun p version => ?_)
    · intro left' hleft'
      obtain rfl := Option.some.inj hleft'
      exact ⟨hwalked.ok, hwalked.solid hinside.solid⟩
    · rw [hg'.2, hleft, take_add_one, getElem?_eq_getElem hlti]
      simp only [Option.mem_some_iff, exists_eq_left', hwalked.left, Option.toList_some, mem_append,
        mem_singleton, or_and_right, exists_or, exists_eq_left, or_assoc, and_or_left]
    · rw [hwalked.pieces, hpieces, take_add_one, getElem?_eq_getElem hlti]
      simp only [Option.toList_some, mem_append, mem_singleton, or_and_right, exists_or,
        exists_eq_left, or_assoc, and_or_left]

theorem ending_of_write (ih : ∀ k < n, Ending logs k)
    (hl : (logs.node n).layer = some (.write region version strong))
    (hlt : stop < (logs.node n).len) (hf : f.Ok) (hproper : f.Proper)
    (hresume : ∀ left pieces', Walked logs stop n f pieces left pieces' →
      Resumes logs rest P left pieces') {prev : ℕ} (hprev : (logs.node n).prev = some prev) :
    Returns (do
      let found ← f.overlapping region
      let pieces' := found.filterMap fun fragment =>
        (intersection fragment region).map fun domain => ⟨version, domain⟩
      let remaining ← overwrite f region strong
      pure (.inr ⟨⟨prev, stop, remaining, none⟩ :: rest, none, pieces ++ pieces'⟩) :
        Metered ℕ ((Fragments × List Piece) ⊕ Walk)) (Continues logs P) := by
  obtain ⟨m, hm, hmn, -⟩ := h.prev n _ hl
  cases hprev.symm.trans hm
  refine Returns.bind (returns_overlapping hf hproper) fun found hfound => ?_
  refine Returns.bind (returns_overwrite hf hproper region strong) fun f' hf' => Returns.pure ?_
  refine ih prev hmn stop f' rest _ P hf'.1 hf'.2.1 fun left pieces' hwalked =>
    hresume left pieces' ⟨hwalked.ok, fun hsolid => hwalked.solid (hf'.2.2.1 hsolid),
      fun hsolid => hwalked.solidPieces (hsolid.append solidPieces_found), fun p => ?_,
      fun p version' => ?_⟩
  · rw [hwalked.left, hf'.2.2.2, leads_write hlt hl hprev]
    simp only [reduceCtorEq, false_and, false_or, and_assoc]
  · rw [hwalked.pieces, hf'.2.2.2, leads_write hlt hl hprev, supplied_append, supplied_found hfound]
    simp only [Option.some.injEq, eq_comm (a := version')]
    tauto

theorem ending (n : ℕ) : Ending logs n := by
  induction n using Nat.strong_induction_on with
  | h n ih =>
    intro stop f rest pieces P hf hproper hresume
    by_cases hgo : f.isEmpty = false ∧ stop < (logs.node n).len
    · refine ends_of_turn ?_
      unfold turn
      dsimp only
      rw [if_pos hgo]
      refine Returns.bind (Returns.payNat 1) fun _ _ => Returns.bind (returns_skip h hf hproper none) ?_
      rintro (_ | j) hskip
      · -- the layer of the node itself
        cases hl : (logs.node n).layer with
        | none =>
          have := h.bottom n hl
          omega
        | some l =>
          obtain ⟨m, hm, hmn, hlen, -⟩ := h.prev n l hl
          rw [hm]
          cases l with
          | write region version strong =>
            exact ending_of_write h ih hl hgo.2 hf hproper hresume hm
          | merge common branches bounds =>
            refine Returns.bind (returns_splitOff hf hproper bounds) ?_
            rintro ⟨inside, outside⟩ ⟨hinside, hok, hproper', hsolid, hfsolid, hsplit, houtside⟩
            have hnot : ∀ p, outside.Has p → ¬InBounds bounds p :=
              fun p hp ⟨region, hregion, hbit⟩ => houtside p hp region hregion hbit
            split
            · rename_i hempty
              have hnone : ∀ p, ¬inside.Has p := by
                rintro p ⟨b, hb, -⟩
                rw [Fragments.isEmpty, List.isEmpty_iff] at hempty
                rw [hempty] at hb
                exact absurd hb not_mem_nil
              have hpass : ∀ p r, outside.Has p →
                  (Leads logs p stop n r ↔ Leads logs p stop m r) := fun p r hp =>
                leads_down h (.layer hl hm (fun _ hb => hb) (.refl _)) (hnot p hp) (by omega)
              refine Returns.pure (ih m hmn stop outside rest pieces P hok hproper'
                fun left pieces' hwalked => hresume left pieces' ⟨hwalked.ok,
                  fun hf' => hwalked.solid (hsolid hf'), hwalked.solidPieces, fun p => ?_,
                  fun p version => ?_⟩)
              · rw [hwalked.left, hsplit, or_iff_right (hnone p)]
                exact and_congr_right fun hp => (hpass p _ hp).symm
              · rw [hwalked.pieces, hsplit, or_iff_right (hnone p)]
                exact or_congr_right (and_congr_right fun hp => (hpass p _ hp).symm)
            · rename_i hne
              have hfs := hfsolid (by simpa using hne)
              refine Returns.pure (ends_join h ih hl hgo.2 hinside hsplit hnot hresume
                branches.length 0 outside none pieces (by simp) ⟨hok, hsolid hfs⟩ (by simp) id
                (by simp) (by simp))
      · -- a skipped stretch
        obtain ⟨hjn, hleads⟩ := hskip j rfl
        refine Returns.pure (ih j hjn stop f rest pieces P hf hproper fun left pieces' hwalked =>
          hresume left pieces' ⟨hwalked.ok, hwalked.solid, hwalked.solidPieces, fun p => ?_,
            fun p version => ?_⟩)
        · rw [hwalked.left]
          exact and_congr_right fun hp => (hleads p hp _).symm
        · rw [hwalked.pieces]
          exact or_congr_right (and_congr_right fun hp => (hleads p hp _).symm)
    · have hend : ∀ p, f.Has p → ∀ r, Leads logs p stop n r ↔ r = none := by
        rintro p ⟨b, hb, -⟩ r
        have hne : f.isEmpty = false := by
          rw [Fragments.isEmpty, isEmpty_eq_false_iff]
          exact ne_nil_of_mem hb
        exact leads_stop (Nat.le_of_not_lt fun hlt => hgo ⟨hne, hlt⟩)
      have hwalked : Walked logs stop n f pieces f pieces := by
        refine ⟨hf, id, id, fun p => ?_, fun p version => ?_⟩
        · exact (and_iff_left_of_imp fun hp => (hend p hp none).2 rfl).symm
        · refine (or_iff_left ?_).symm
          rintro ⟨hp, hleads⟩
          cases (hend p hp _).1 hleads
      have hrest := hresume f pieces hwalked
      refine ends_of_turn ?_
      unfold turn
      dsimp only
      rw [if_neg hgo]
      cases rest with
      | nil => exact Returns.pure hrest
      | cons frame rest => exact Returns.pure hrest

theorem returns_resolve (tip : ℕ) (region : PositionDomain) : ∃ enough, ∀ turns ≥ enough,
      Returns (logs.resolve turns tip region) (Resolved logs tip region) := by
  obtain ⟨hok, hproper, hstart⟩ := fragments_start region
  obtain ⟨enough, henough⟩ := ending h tip 0 _ [] [] (fun r => Resolved logs tip region
    (r.2 ++ r.1.boxes.map fun domain => ⟨(logs.node tip).base, domain⟩)) hok hproper
    fun left pieces hwalked => by
      refine ⟨pieces, left, rfl, hwalked.ok, fun hregion => hwalked.solid ?_, hwalked.solidPieces nofun,
        fun p => ?_, fun p version => ?_⟩
      · intro b hb
        obtain rfl := mem_singleton.1 (show b ∈ [region] from hb)
        exact hregion
      · rw [hwalked.left, hstart]
      · rw [hwalked.pieces, hstart]
        simp [Supplied]
  exact ⟨enough, fun turns hle => (henough turns hle).bind fun r hr => Returns.pure hr⟩

theorem resolved_resolve {rest : ℕ}
    (hres : logs.resolve turns tip region work = some (pieces, rest)) :
    Resolved logs tip region pieces := by
  obtain ⟨enough, henough⟩ := returns_resolve h tip region
  exact (henough _ (Nat.le_max_right turns enough)).post
    (resolve_mono (Nat.le_max_left turns enough) hres)

theorem resolve_enough (tip : ℕ) (region : PositionDomain) :
    ∃ enough work, ∀ turns ≥ enough, ∀ work' ≥ work, (logs.resolve turns tip region work').isSome := by
  obtain ⟨enough, henough⟩ := returns_resolve h tip region
  obtain ⟨work, -, hwork⟩ := (henough enough (Nat.le_refl _)).enough
  refine ⟨enough, work, fun turns hle work' hle' => ?_⟩
  obtain ⟨⟨pieces, rest⟩, hres⟩ := Option.isSome_iff_exists.1
    (hwork work' (by simp [Purse.take, hle']))
  rw [resolve_mono hle hres]
  rfl

end

/-- The sets of a frame: without empty boxes once the walk has split them. -/
structure FrameOk (frame : WalkFrame) : Prop where
  ok : frame.remaining.Ok
  proper : frame.remaining.Proper
  join : ∀ join ∈ frame.join, frame.remaining.Solid ∧ join.inside.Regular

/-- The sets of a walk; only the outermost one may hold an empty region. -/
structure WalkOk (w : Walk) : Prop where
  frames : ∀ frame ∈ w.frames, FrameOk frame
  solid : ∀ frame ∈ w.frames.dropLast, frame.remaining.Solid
  returned : ∀ left ∈ w.returned, left.Regular

theorem walkOk_start (tip : ℕ) (region : PositionDomain) : WalkOk (start tip region) := by
  obtain ⟨hok, hproper, -⟩ := fragments_start region
  refine ⟨fun frame hframe => ?_, by simp [start], by simp [start]⟩
  rw [start, mem_singleton] at hframe
  subst hframe
  exact ⟨hok, hproper, by simp⟩

theorem WalkOk.replace {frame frame' : WalkFrame} (h : WalkOk ⟨frame :: rest, returned, pieces⟩)
    (hframe : FrameOk frame')
    (hsolid : frame.remaining.Solid → frame'.remaining.Solid) {returned' : Option Fragments}
    (hreturned : ∀ left ∈ returned', left.Regular) :
    WalkOk ⟨frame' :: rest, returned', pieces'⟩ := by
  refine ⟨fun g hg => ?_, fun g hg => ?_, hreturned⟩
  · rcases mem_cons.1 hg with rfl | hg
    · exact hframe
    · exact h.frames g (mem_cons_of_mem _ hg)
  · cases rest with
    | nil => exact absurd hg not_mem_nil
    | cons next rest =>
      have hdrop := h.solid
      rcases mem_cons.1 hg with rfl | hg
      · exact hsolid (hdrop frame (mem_cons_self ..))
      · exact hdrop g (mem_cons_of_mem _ hg)

theorem walkOk_turn (h : WalkOk w) :
    Ensures (logs.turn w) fun x => ∀ w', x = .inr w' → WalkOk w' := by
  obtain ⟨frames, returned, pieces⟩ := w
  cases frames with
  | nil => exact Ensures.none
  | cons frame rest =>
    have hframe := h.frames frame (mem_cons_self ..)
    unfold turn
    dsimp only
    cases hjoin : frame.join with
    | some join =>
      obtain ⟨hsolid, hinside⟩ := hframe.join join hjoin
      refine Ensures.bind (Ensures.of_returns (returns_rejoin ⟨hframe.ok, hsolid⟩ h.returned))
        fun g hg => ?_
      split
      · refine Ensures.pure fun w' hw' => ?_
        obtain rfl := Sum.inr.inj hw'
        have hreplaced : WalkOk ⟨{ frame with
            remaining := g
            join := some { join with next := join.next + 1 } } :: rest, none, pieces⟩ :=
          h.replace ⟨hg.1.toOk, .inl hg.1.solid, fun j hj => by
            obtain rfl := Option.some.inj hj
            exact ⟨hg.1.solid, hinside⟩⟩ (fun _ => hg.1.solid) (by simp)
        refine ⟨fun g' hg' => ?_, fun g' hg' => ?_, by simp⟩
        · rcases mem_cons.1 hg' with rfl | hg'
          · exact ⟨hinside.toOk, .inl hinside.solid, by simp⟩
          · exact hreplaced.frames g' hg'
        · rw [dropLast_cons_of_ne_nil (cons_ne_nil _ _)] at hg'
          rcases mem_cons.1 hg' with rfl | hg'
          · exact hinside.solid
          · exact hreplaced.solid g' hg'
      · refine Ensures.pure fun w' hw' => ?_
        obtain rfl := Sum.inr.inj hw'
        exact h.replace ⟨hg.1.toOk, .inl hg.1.solid, by simp⟩ (fun _ => hg.1.solid) (by simp)
      · exact Ensures.none
    | none =>
      dsimp only
      split
      · refine Ensures.bind Ensures.trivial fun _ _ => Ensures.bind Ensures.trivial fun skipped _ => ?_
        cases skipped with
        | some j =>
          refine Ensures.pure fun w' hw' => ?_
          obtain rfl := Sum.inr.inj hw'
          have hskipped : FrameOk ⟨j, frame.stop, frame.remaining, none⟩ :=
            ⟨hframe.ok, hframe.proper, by simp⟩
          exact h.replace hskipped id h.returned
        | none =>
          dsimp only
          split
          · rename_i region version strong prev hlayer hprev
            refine Ensures.bind Ensures.trivial fun found _ => Ensures.bind (Ensures.of_returns
              (returns_overwrite hframe.ok hframe.proper region strong)) fun g hg =>
              Ensures.pure fun w' hw' => ?_
            obtain rfl := Sum.inr.inj hw'
            exact h.replace ⟨hg.1, hg.2.1, by simp⟩ hg.2.2.1 h.returned
          · rename_i common branches bounds prev hlayer hprev
            refine Ensures.bind (Ensures.of_returns
              (returns_splitOff hframe.ok hframe.proper bounds)) ?_
            rintro ⟨inside, outside⟩ ⟨hinside, hok, hproper, hsolid, hfsolid, -, -⟩
            split
            · refine Ensures.pure fun w' hw' => ?_
              obtain rfl := Sum.inr.inj hw'
              exact h.replace ⟨hok, hproper, by simp⟩ hsolid h.returned
            · rename_i hne
              have hout := hsolid (hfsolid (by simpa using hne))
              refine Ensures.pure fun w' hw' => ?_
              obtain rfl := Sum.inr.inj hw'
              exact h.replace ⟨hok, hproper, fun j hj => by
                obtain rfl := Option.some.inj hj
                exact ⟨hout, hinside⟩⟩ hsolid h.returned
          · exact Ensures.none
      · cases rest with
        | nil =>
          refine Ensures.pure fun w' hw' => ?_
          cases hw'
        | cons next rest =>
          refine Ensures.pure fun w' hw' => ?_
          obtain rfl := Sum.inr.inj hw'
          have hdrop := h.solid
          refine ⟨fun g hg => h.frames g (mem_cons_of_mem _ hg),
            fun g hg => hdrop g (mem_cons_of_mem _ hg), fun left hleft => ?_⟩
          obtain rfl := Option.some.inj hleft
          exact ⟨hframe.ok, hdrop frame (mem_cons_self ..)⟩

/-- A walk that turns lead to. -/
def Reached (logs : Logs) (tip : ℕ) (region : PositionDomain) : Walk → Prop :=
  Relation.ReflTransGen (fun w w' => ∃ work rest, logs.turn w work = some (.inr w', rest))
    (start tip region)

theorem walkOk_of_reached (h : Reached logs tip region w) : WalkOk w := by
  induction h with
  | refl => exact walkOk_start tip region
  | tail _ hturn ih =>
    obtain ⟨work, rest, hturn⟩ := hturn
    exact walkOk_turn ih work _ rest hturn _ rfl

/-- The boxes of the sets of a walk have no common position. -/
def DisjointBoxes (w : Walk) : Prop :=
  (∀ frame ∈ w.frames, frame.remaining.boxes.Pairwise PositionDomain.Apart ∧
    ∀ join ∈ frame.join, join.inside.boxes.Pairwise PositionDomain.Apart) ∧
  ∀ left ∈ w.returned, left.boxes.Pairwise PositionDomain.Apart

theorem disjointBoxes_of_reached (h : Reached logs tip region w) : DisjointBoxes w := by
  have hok := walkOk_of_reached h
  exact ⟨fun frame hframe => ⟨(hok.frames frame hframe).ok.apart,
    fun join hjoin => ((hok.frames frame hframe).join join hjoin).2.apart⟩,
    fun left hleft => (hok.returned left hleft).apart⟩

end Logs
end Veryl.Analyzer.CombLoopDetect
