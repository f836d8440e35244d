import Veryl.Analyzer.CombLoopDetect.Ssa.Fragments

/-!
Sets of fragments as sets of positions: queries find exactly what overlaps, and
every change keeps the boxes disjoint.
-/

namespace Veryl.Analyzer.CombLoopDetect

open Veryl.Library List Option

variable {aStart aEnd pStart pEnd turns array : ℕ} {found : List PositionDomain}

variable (boxes : List PositionDomain) {b : PositionDomain} {f : Fragments} {a : PositionDomain}

section Rectangles

variable {a b d e r : PositionDomain} {p : BitPosition}

/-- No common position. -/
def PositionDomain.Apart (a b : PositionDomain) : Prop := ∀ p, ¬(a.HasBit p ∧ b.HasBit p)

def PositionDomain.Inhabited (d : PositionDomain) : Prop := ∃ p, d.HasBit p

theorem PositionDomain.Apart.symm (h : a.Apart b) : b.Apart a := fun p hp => h p hp.symm

theorem PositionDomain.inhabited_iff : d.Inhabited ↔ 0 < d.arrayLength ∧ 0 < d.packedLength := by
  constructor
  · rintro ⟨p, hp⟩
    simp only [PositionDomain.HasBit] at hp
    omega
  · intro h
    refine ⟨(d.arrayStart, d.packedStart), ?_⟩
    simp only [PositionDomain.HasBit]
    omega

theorem mem_rectangle (h : d ∈ rectangle aStart aEnd pStart pEnd) :
    d.Inhabited ∧ ∀ p, d.HasBit p ↔ (aStart ≤ p.1 ∧ p.1 < aEnd) ∧ pStart ≤ p.2 ∧ p.2 < pEnd := by
  simp only [rectangle, mem_def, ite_none_right_eq_some, some.injEq] at h
  obtain ⟨⟨harray, hpacked⟩, rfl⟩ := h
  refine ⟨PositionDomain.inhabited_iff.2 (by dsimp only; omega), fun p => ?_⟩
  simp only [PositionDomain.HasBit]
  omega

theorem exists_mem_rectangle : (∃ d ∈ rectangle aStart aEnd pStart pEnd, d.HasBit p) ↔
      (aStart ≤ p.1 ∧ p.1 < aEnd) ∧ pStart ≤ p.2 ∧ p.2 < pEnd := by
  constructor
  · rintro ⟨d, hd, hp⟩
    exact ((mem_rectangle hd).2 p).1 hp
  · intro hp
    have hd : (⟨aStart, aEnd - aStart, pStart, pEnd - pStart⟩ : PositionDomain) ∈
        rectangle aStart aEnd pStart pEnd := by
      rw [rectangle, if_pos (by omega)]
      rfl
    exact ⟨_, hd, ((mem_rectangle hd).2 p).2 hp⟩

theorem exists_mem_intersection :
    (∃ d ∈ intersection a b, d.HasBit p) ↔ a.HasBit p ∧ b.HasBit p := by
  rw [intersection, exists_mem_rectangle]
  simp only [PositionDomain.HasBit]
  omega

theorem isSome_intersection : (intersection a b).isSome ↔ ¬a.Apart b := by
  simp only [PositionDomain.Apart, not_forall, not_not, ← exists_mem_intersection]
  constructor
  · intro h
    obtain ⟨d, hd⟩ := isSome_iff_exists.1 h
    obtain ⟨p, hp⟩ := (mem_rectangle hd).1
    exact ⟨p, d, hd, hp⟩
  · rintro ⟨p, d, hd, -⟩
    exact isSome_of_mem hd

theorem hasBit_hull (h : a.HasBit p ∨ b.HasBit p) : (a.hull b).HasBit p := by
  simp only [PositionDomain.HasBit, PositionDomain.hull] at h ⊢
  omega

theorem exists_mem_complement : (∃ d ∈ complement e r, d.HasBit p) ↔ e.HasBit p ∧ ¬r.HasBit p := by
  simp only [complement]
  split
  · rename_i hempty
    simp only [mem_singleton, exists_eq_left, PositionDomain.HasBit]
    omega
  · rename_i hmeet
    have hsplit : ∀ o : List (Option PositionDomain),
        (∃ d ∈ o.filterMap id, d.HasBit p) ↔ ∃ x ∈ o, ∃ d ∈ x, d.HasBit p := by
      intro o
      simp only [mem_filterMap, id, mem_def]
      constructor
      · rintro ⟨d, ⟨x, hx, rfl⟩, hp⟩
        exact ⟨_, hx, d, rfl, hp⟩
      · rintro ⟨x, hx, d, rfl, hp⟩
        exact ⟨d, ⟨_, hx, rfl⟩, hp⟩
    rw [hsplit]
    simp only [mem_cons, not_mem_nil, or_false, exists_eq_or_imp, exists_eq_left,
      exists_mem_rectangle]
    simp only [PositionDomain.HasBit]
    omega

theorem inhabited_of_mem_complement (he : e.Inhabited) (hd : d ∈ complement e r) : d.Inhabited := by
  simp only [complement] at hd
  split at hd
  · obtain rfl := mem_singleton.1 hd
    exact he
  · obtain ⟨x, hx, hd⟩ := mem_filterMap.1 hd
    simp only [mem_cons, not_mem_nil, or_false] at hx
    rcases hx with rfl | rfl | rfl | rfl <;> exact (mem_rectangle hd).1

theorem pairwise_complement (e r : PositionDomain) :
    (complement e r).Pairwise PositionDomain.Apart := by
  simp only [complement]
  split
  · exact pairwise_singleton _ _
  refine pairwise_filterMap.2 ?_
  simp only [id, pairwise_cons, mem_cons, not_mem_nil, or_false, forall_eq_or_imp,
    forall_eq, false_imp_iff, implies_true, List.Pairwise.nil, and_true]
  refine ⟨⟨?_, ?_, ?_⟩, ⟨?_, ?_⟩, ?_⟩ <;>
    intro a ha b hb p ⟨hpa, hpb⟩ <;>
    rw [(mem_rectangle ha).2] at hpa <;>
    rw [(mem_rectangle hb).2] at hpb <;>
    omega

/-- A bit of one of the rectangles. -/
def AnyBit (boxes : List PositionDomain) (p : BitPosition) : Prop := ∃ d ∈ boxes, d.HasBit p

variable {parts regions : List PositionDomain}

theorem anyBit_flatMap_complement : AnyBit (parts.flatMap fun part => complement part r) p ↔
    AnyBit parts p ∧ ¬r.HasBit p := by
  simp only [AnyBit, mem_flatMap]
  constructor
  · rintro ⟨d, ⟨part, hpart, hd⟩, hp⟩
    obtain ⟨hbit, hnot⟩ := exists_mem_complement.1 ⟨d, hd, hp⟩
    exact ⟨⟨part, hpart, hbit⟩, hnot⟩
  · rintro ⟨⟨part, hpart, hbit⟩, hnot⟩
    obtain ⟨d, hd, hp⟩ := exists_mem_complement.2 ⟨hbit, hnot⟩
    exact ⟨d, ⟨part, hpart, hd⟩, hp⟩

theorem anyBit_complementAll :
    AnyBit (complementAll parts regions) p ↔ AnyBit parts p ∧ ¬AnyBit regions p := by
  induction regions generalizing parts with
  | nil => simp [complementAll, AnyBit]
  | cons r regions ih =>
    change AnyBit (complementAll (parts.flatMap fun part => complement part r) regions) p ↔ _
    rw [ih, anyBit_flatMap_complement]
    simp [AnyBit, and_assoc]

theorem pairwise_flatMap_complement (h : parts.Pairwise PositionDomain.Apart) :
    (parts.flatMap fun part => complement part r).Pairwise PositionDomain.Apart := by
  rw [pairwise_flatMap]
  refine ⟨fun part _ => pairwise_complement part r, h.imp ?_⟩
  intro a b hab d hd d' hd' p ⟨hp, hp'⟩
  exact hab p ⟨(exists_mem_complement.1 ⟨d, hd, hp⟩).1, (exists_mem_complement.1 ⟨d', hd', hp'⟩).1⟩

theorem pairwise_complementAll (h : parts.Pairwise PositionDomain.Apart) :
    (complementAll parts regions).Pairwise PositionDomain.Apart := by
  induction regions generalizing parts with
  | nil => exact h
  | cons r regions ih => exact ih (pairwise_flatMap_complement h)

theorem inhabited_of_mem_complementAll (h : ∀ d ∈ parts, d.Inhabited)
    (hd : d ∈ complementAll parts regions) : d.Inhabited := by
  induction regions generalizing parts with
  | nil => exact h d hd
  | cons r regions ih =>
    refine ih (fun d' hd' => ?_) hd
    obtain ⟨part, hpart, hd'⟩ := mem_flatMap.1 hd'
    exact inhabited_of_mem_complement (h part hpart) hd'

end Rectangles

namespace Fragments

variable {f : Fragments} {d region : PositionDomain} {p : BitPosition}

def Has (f : Fragments) (p : BitPosition) : Prop := AnyBit f.boxes p

/-- Distinct boxes in order without a common position, and their lengths. -/
structure Ok (f : Fragments) : Prop where
  sorted : f.boxes.Pairwise fun a b => a.startKey ≤ b.startKey
  nodup : f.boxes.Nodup
  apart : f.boxes.Pairwise PositionDomain.Apart
  lengths : f.lengths.Perm (f.boxes.map (·.arrayLength))

/-- No box is empty. -/
def Solid (f : Fragments) : Prop := ∀ b ∈ f.boxes, b.Inhabited

/-- An empty box is alone. -/
def Proper (f : Fragments) : Prop := f.Solid ∨ ∃ b, f.boxes = [b]

theorem ok_empty : empty.Ok :=
  ⟨List.Pairwise.nil, nodup_nil, List.Pairwise.nil, List.Perm.refl _⟩

theorem solid_empty : empty.Solid := fun _ hb => absurd hb not_mem_nil

instance : Std.Symm PositionDomain.Apart := ⟨fun _ _ => PositionDomain.Apart.symm⟩

theorem Ok.apart_of_ne (h : f.Ok) (ha : a ∈ f.boxes) (hb : b ∈ f.boxes) (hne : a ≠ b) : a.Apart b :=
  h.apart.forall ha hb hne

instance : Std.Total fun a b : PositionDomain => a.startKey ≤ b.startKey :=
  ⟨fun a b => le_total a.startKey b.startKey⟩

instance : IsTrans PositionDomain fun a b => a.startKey ≤ b.startKey :=
  ⟨fun _ _ _ => le_trans⟩

theorem mem_insert : b ∈ (f.insert d).boxes ↔ b = d ∨ b ∈ f.boxes := by
  unfold insert
  split
  · rename_i hd
    exact ⟨.inr, fun h => h.elim (fun h => h ▸ hd) id⟩
  · exact mem_orderedInsert _

theorem ok_insert (h : f.Ok) (hapart : ∀ b ∈ f.boxes, b ≠ d → d.Apart b) : (f.insert d).Ok := by
  unfold insert
  split
  · exact h
  · rename_i hd
    have hperm := perm_orderedInsert (fun a b : PositionDomain => a.startKey ≤ b.startKey) d f.boxes
    refine ⟨h.sorted.orderedInsert _ _, hperm.nodup_iff.2 (nodup_cons.2 ⟨hd, h.nodup⟩), ?_, ?_⟩
    · refine (List.Perm.pairwise_iff PositionDomain.Apart.symm hperm).2
        (pairwise_cons.2 ⟨fun b hb => ?_, h.apart⟩)
      exact hapart b hb fun heq => hd (heq ▸ hb)
    · exact (h.lengths.cons _).trans (hperm.map _).symm

theorem mem_remove (h : f.Ok) : b ∈ (f.remove d).boxes ↔ b ≠ d ∧ b ∈ f.boxes := by
  unfold remove
  split
  · exact h.nodup.mem_erase_iff
  · rename_i hd
    exact ⟨fun hb => ⟨fun heq => hd (heq ▸ hb), hb⟩, And.right⟩

theorem ok_remove (h : f.Ok) : (f.remove d).Ok := by
  unfold remove
  split
  · rename_i hd
    have hsub := erase_sublist (a := d) (l := f.boxes)
    refine ⟨h.sorted.sublist hsub, h.nodup.sublist hsub, h.apart.sublist hsub, ?_⟩
    have hperm := h.lengths.trans ((perm_cons_erase hd).map _)
    simpa using hperm.erase d.arrayLength
  · exact h

section Visit

variable {σ : Type} {visit : σ → PositionDomain → σ × Bool}

/-- What visiting some boxes gives. -/
def visited (visit : σ → PositionDomain → σ × Bool) : List PositionDomain → σ → σ × Bool
  | [], s => (s, false)
  | b :: boxes, s =>
    if (visit s b).2 then ((visit s b).1, true) else visited visit boxes (visit s b).1

theorem visited_append (xs ys : List PositionDomain) (s : σ) : visited visit (xs ++ ys) s =
    if (visited visit xs s).2 then visited visit xs s else visited visit ys (visited visit xs s).1 := by
  induction xs generalizing s with
  | nil => rfl
  | cons x xs ih =>
    simp only [cons_append, visited]
    split
    · rfl
    · exact ih _

theorem returns_visitBoxes (s : σ) :
    Returns (visitBoxes visit boxes s) (· = visited visit boxes s) := by
  induction boxes generalizing s with
  | nil => exact Returns.pure rfl
  | cons b boxes ih =>
    refine Returns.bind (Returns.payNat 1) fun _ _ => ?_
    dsimp only [visited]
    split
    · exact Returns.pure rfl
    · exact ih _

/-- The boxes a query visits from an array start on. -/
def candidatesFrom (f : Fragments) (region : PositionDomain) : ℕ → ℕ → List PositionDomain
  | 0, _ => []
  | turns + 1, array =>
    if array < region.arrayStart + region.arrayLength then
      match (f.boxes.filter fun b => array ≤ b.arrayStart).head? with
      | none => []
      | some next =>
        if region.arrayStart + region.arrayLength ≤ next.arrayStart then []
        else f.candidatesAt region next.arrayStart ++ candidatesFrom f region turns (next.arrayStart + 1)
    else []

theorem returns_visitStarts (turns array : ℕ) (s : σ) :
    Returns (visitStarts visit f region turns array s)
    (· = visited visit (f.candidatesFrom region turns array) s) := by
  induction turns generalizing array s with
  | zero => exact Returns.pure rfl
  | succ turns ih =>
    simp only [visitStarts, candidatesFrom]
    split
    · refine Returns.bind (Returns.payNat 1) fun _ _ => ?_
      cases (f.boxes.filter fun b => array ≤ b.arrayStart).head? with
      | none => exact Returns.pure rfl
      | some next =>
        dsimp only
        split
        · exact Returns.pure rfl
        · refine Returns.bind (returns_visitBoxes _ s) ?_
          rintro r rfl
          rw [visited_append]
          split
          · rename_i hhit
            exact Returns.pure (Prod.ext rfl hhit.symm)
          · exact ih _ _
    · exact Returns.pure rfl

/-- All boxes a query visits. -/
def candidates (f : Fragments) (region : PositionDomain) : List PositionDomain :=
  let array := region.arrayStart - (f.longest - 1)
  f.candidatesFrom region (region.arrayStart + region.arrayLength - array) array

theorem returns_visitCandidates (s : σ) : Returns (visitCandidates visit f region s)
    (· = visited visit (f.candidates region) s) :=
  returns_visitStarts _ _ _

end Visit

theorem mem_candidatesAt {start : ℕ} (h : b ∈ f.candidatesAt region start) :
    b ∈ f.boxes ∧ b.arrayStart = start := by
  rcases mem_append.1 h with h | h
  · rw [mem_toList] at h
    have := mem_filter.1 (List.mem_of_getLast? h)
    simp only [decide_eq_true_eq] at this
    exact ⟨this.1, this.2.1⟩
  · have := mem_filter.1 h
    simp only [decide_eq_true_eq] at this
    exact ⟨this.1, this.2.1⟩

theorem mem_candidatesFrom
    (h : b ∈ f.candidatesFrom region turns array) : b ∈ f.boxes ∧ array ≤ b.arrayStart := by
  induction turns generalizing array with
  | zero => exact absurd h not_mem_nil
  | succ turns ih =>
    simp only [candidatesFrom] at h
    split at h
    · split at h
      · exact absurd h not_mem_nil
      rename_i next hnext
      have hle := (mem_filter.1 (List.mem_of_head? hnext)).2
      simp only [decide_eq_true_eq] at hle
      split at h
      · exact absurd h not_mem_nil
      · rcases mem_append.1 h with h | h
        · obtain ⟨hb, heq⟩ := mem_candidatesAt h
          exact ⟨hb, by omega⟩
        · obtain ⟨hb, hlt⟩ := ih h
          exact ⟨hb, by omega⟩
    · exact absurd h not_mem_nil

theorem nodup_candidatesAt (h : f.Ok) (start : ℕ) : (f.candidatesAt region start).Nodup := by
  refine nodup_append.2 ⟨?_, h.nodup.filter _, ?_⟩
  · cases (f.boxes.filter fun b => b.arrayStart = start ∧ b.packedStart < region.packedStart).getLast? <;>
      simp
  · rintro a ha b hb rfl
    rw [mem_toList] at ha
    have hlow := (mem_filter.1 (List.mem_of_getLast? ha)).2
    have hhigh := (mem_filter.1 hb).2
    simp only [decide_eq_true_eq] at hlow hhigh
    omega

theorem nodup_candidatesFrom (h : f.Ok) (turns array : ℕ) :
    (f.candidatesFrom region turns array).Nodup := by
  induction turns generalizing array with
  | zero => exact nodup_nil
  | succ turns ih =>
    simp only [candidatesFrom]
    split
    · split
      · exact nodup_nil
      · split
        · exact nodup_nil
        · refine nodup_append.2 ⟨nodup_candidatesAt h _, ih _, ?_⟩
          rintro a ha b hb rfl
          have := (mem_candidatesAt ha).2
          have := (mem_candidatesFrom hb).2
          omega
    · exact nodup_nil

theorem startKey_le (h : a.startKey ≤ b.startKey) :
    a.arrayStart < b.arrayStart ∨ a.arrayStart = b.arrayStart ∧ a.packedStart ≤ b.packedStart := by
  simp only [PositionDomain.startKey, Prod.Lex.toLex_le_toLex] at h
  omega

theorem mem_candidatesAt_of_meets (h : f.Ok) (hsolid : f.Solid)
    (hb : b ∈ f.boxes) (hmeet : ¬b.Apart region) : b ∈ f.candidatesAt region b.arrayStart := by
  obtain ⟨p, hpb, hpr⟩ := not_forall_not.1 hmeet
  simp only [PositionDomain.HasBit] at hpb hpr
  by_cases hlow : b.packedStart < region.packedStart
  · refine mem_append_left _ (mem_toList.2 ?_)
    have hmem : b ∈ f.boxes.filter fun c => c.arrayStart = b.arrayStart ∧
        c.packedStart < region.packedStart :=
      mem_filter.2 ⟨hb, by simp [hlow]⟩
    obtain ⟨l, hl⟩ := isSome_iff_exists.1 (getLast?_isSome.2 (ne_nil_of_mem hmem))
    obtain ⟨init, hinit⟩ := getLast?_eq_some_iff.1 hl
    have hsorted := h.sorted.filter fun c => c.arrayStart = b.arrayStart ∧
      c.packedStart < region.packedStart
    obtain ⟨hlBoxes, hlStart⟩ := mem_filter.1 (List.mem_of_getLast? hl)
    simp only [decide_eq_true_eq] at hlStart
    rw [hinit] at hmem hsorted
    rw [hl]
    rcases mem_append.1 hmem with hin | hin
    · have hle := startKey_le ((pairwise_append.1 hsorted).2.2 b hin l (mem_singleton_self l))
      by_cases heq : b = l
      · rw [heq]
      · -- the start of the last box lies in the earlier one
        have hinhabited := PositionDomain.inhabited_iff.1 (hsolid l hlBoxes)
        refine absurd ⟨?_, ?_⟩ (h.apart_of_ne hb hlBoxes heq (b.arrayStart, l.packedStart))
        · simp only [PositionDomain.HasBit]
          omega
        · simp only [PositionDomain.HasBit]
          omega
    · rw [mem_singleton.1 hin]
  · exact mem_append_right _ (mem_filter.2 ⟨hb, by simp; omega⟩)

theorem mem_candidatesFrom_of_mem (h : f.Ok) (hb : b ∈ f.boxes)
    (hat : b ∈ f.candidatesAt region b.arrayStart)
    (hhigh : b.arrayStart < region.arrayStart + region.arrayLength)
    (harray : array ≤ b.arrayStart)
    (hturns : region.arrayStart + region.arrayLength ≤ array + turns) :
    b ∈ f.candidatesFrom region turns array := by
  induction turns generalizing array with
  | zero => omega
  | succ turns ih =>
    have hmem : b ∈ f.boxes.filter fun c => array ≤ c.arrayStart :=
      mem_filter.2 ⟨hb, by simpa using harray⟩
    obtain ⟨next, hnext⟩ := isSome_iff_exists.1 (List.isSome_head?.2 (ne_nil_of_mem hmem))
    have hle : next.arrayStart ≤ b.arrayStart := by
      have hsorted := h.sorted.filter fun c => array ≤ c.arrayStart
      obtain ⟨rest, hrest⟩ := head?_eq_some_iff.1 hnext
      rw [hrest] at hmem hsorted
      rcases mem_cons.1 hmem with rfl | hin
      · exact Nat.le_refl _
      · have := startKey_le ((pairwise_cons.1 hsorted).1 b hin)
        omega
    simp only [candidatesFrom, if_pos (show array < region.arrayStart + region.arrayLength by omega),
      hnext, if_neg (show ¬region.arrayStart + region.arrayLength ≤ next.arrayStart by omega)]
    by_cases heq : next.arrayStart = b.arrayStart
    · exact mem_append_left _ (heq ▸ hat)
    · have hnextLe := (mem_filter.1 (List.mem_of_head? hnext)).2
      simp only [decide_eq_true_eq] at hnextLe
      exact mem_append_right _ (ih (by omega) (by omega))

theorem le_longest (h : f.Ok) (hb : b ∈ f.boxes) : b.arrayLength ≤ f.longest := by
  have hmem : b.arrayLength ∈ f.lengths := h.lengths.mem_iff.2 (List.mem_map_of_mem hb)
  have hfold : ∀ l : List ℕ, ∀ x ∈ l, x ≤ l.foldr max 0 := by
    intro l
    induction l with
    | nil => simp
    | cons y l ih =>
      intro x hx
      rcases mem_cons.1 hx with rfl | hx
      · exact le_max_left _ _
      · exact (ih x hx).trans (le_max_right _ _)
  exact hfold _ _ hmem

theorem mem_candidates (h : f.Ok) (hproper : f.Proper) (hb : b ∈ f.boxes)
    (hmeet : ¬b.Apart region) : b ∈ f.candidates region := by
  obtain ⟨p, hpb, hpr⟩ := not_forall_not.1 hmeet
  have hsolid : f.Solid := by
    rcases hproper with hsolid | ⟨c, hc⟩
    · exact hsolid
    · intro b' hb'
      rw [hc, mem_singleton] at hb hb'
      rw [hb', ← hb]
      exact ⟨p, hpb⟩
  have hlongest := le_longest h hb
  have hat := mem_candidatesAt_of_meets h hsolid hb hmeet
  simp only [PositionDomain.HasBit] at hpb hpr
  exact mem_candidatesFrom_of_mem h hb hat (by omega) (by omega) (by omega)

/-- What a query finds. -/
def Meets (f : Fragments) (region : PositionDomain) (found : List PositionDomain) : Prop :=
  found.Nodup ∧ ∀ b, b ∈ found ↔ b ∈ f.boxes ∧ ¬b.Apart region

theorem returns_overlapping (h : f.Ok) (hproper : f.Proper) :
    Returns (f.overlapping region) (f.Meets region) := by
  refine Returns.bind (returns_visitCandidates _) ?_
  rintro r rfl
  have hvisited : ∀ (boxes found : List PositionDomain), visited (fun found fragment =>
      (if (intersection fragment region).isSome then found ++ [fragment] else found, false)) boxes found =
        (found ++ boxes.filter fun b => (intersection b region).isSome, false) := by
    intro boxes
    induction boxes with
    | nil => simp [visited]
    | cons b boxes ih =>
      simp only [visited, Bool.false_eq_true, if_false, ih, filter_cons]
      split <;> simp
  refine Returns.pure ?_
  simp only [hvisited, nil_append]
  refine ⟨(nodup_candidatesFrom h _ _).filter _, fun b => ?_⟩
  rw [mem_filter, isSome_intersection]
  exact ⟨fun ⟨hb, hmeet⟩ => ⟨(mem_candidatesFrom hb).1, hmeet⟩,
    fun ⟨hb, hmeet⟩ => ⟨mem_candidates h hproper hb hmeet, hmeet⟩⟩

theorem returns_overlaps (h : f.Ok) (hproper : f.Proper) (bounds : Option PositionDomain) :
    Returns (f.overlaps bounds) fun r => r = true ↔ ∃ region ∈ bounds, ∃ p, f.Has p ∧ region.HasBit p := by
  cases bounds with
  | none => exact Returns.pure (by simp)
  | some region =>
    refine Returns.bind (returns_visitCandidates _) ?_
    rintro r rfl
    have hvisited : ∀ boxes : List PositionDomain, (visited (fun (_ : Unit) fragment =>
        ((), (intersection fragment region).isSome)) boxes ()).2 = true ↔
          ∃ b ∈ boxes, ¬b.Apart region := by
      intro boxes
      induction boxes with
      | nil => simp [visited]
      | cons b boxes ih =>
        simp only [visited, mem_cons, exists_eq_or_imp, ← isSome_intersection]
        split
        · rename_i hhit
          simp [hhit]
        · rename_i hhit
          simp only [← isSome_intersection] at ih
          simp [hhit, ih]
    refine Returns.pure ((hvisited _).trans ?_)
    simp only [mem_some_iff, exists_eq_left']
    constructor
    · rintro ⟨b, hb, hmeet⟩
      obtain ⟨p, hp⟩ := not_forall_not.1 hmeet
      exact ⟨p, ⟨b, (mem_candidatesFrom hb).1, hp.1⟩, hp.2⟩
    · rintro ⟨p, ⟨b, hb, hpb⟩, hpr⟩
      have hmeet : ¬b.Apart region := fun hapart => hapart p ⟨hpb, hpr⟩
      exact ⟨b, mem_candidates h hproper hb hmeet, hmeet⟩

/-- Solid sets of disjoint boxes. -/
structure Regular (f : Fragments) : Prop extends f.Ok where
  solid : f.Solid

theorem regular_empty : empty.Regular := ⟨ok_empty, solid_empty⟩

theorem Regular.insert (h : f.Regular) (hd : d.Inhabited) (hapart : ∀ b ∈ f.boxes, d.Apart b) :
    (f.insert d).Regular := by
  refine ⟨ok_insert h.toOk fun b hb _ => hapart b hb, fun b hb => ?_⟩
  rcases mem_insert.1 hb with rfl | hb
  · exact hd
  · exact h.solid b hb

theorem Regular.remove (h : f.Regular) : (f.remove d).Regular :=
  ⟨ok_remove h.toOk, fun b hb => h.solid b ((mem_remove h.toOk).1 hb).2⟩

theorem returns_insertAll (h : f.Regular) {parts : List PositionDomain}
    (hparts : parts.Pairwise PositionDomain.Apart) (hsolid : ∀ d ∈ parts, d.Inhabited)
    (hapart : ∀ d ∈ parts, ∀ b ∈ f.boxes, d.Apart b) :
    Returns (f.insertAll parts) fun f' => f'.Regular ∧ ∀ b, b ∈ f'.boxes ↔ b ∈ f.boxes ∨ b ∈ parts := by
  refine Returns.foldlM (Q := fun done (f' : Fragments) =>
    f'.Regular ∧ ∀ b, b ∈ f'.boxes ↔ b ∈ f.boxes ∨ b ∈ done)
    ⟨h, by simp⟩ ?_
  rintro done d rest f' hl ⟨hf', hmem⟩
  refine Returns.bind (Returns.payNat 1) fun _ _ => Returns.pure ⟨hf'.insert ?_ ?_, fun b => ?_⟩
  · exact hsolid d (by rw [hl]; simp)
  · intro b hb
    rcases (hmem b).1 hb with hb | hb
    · exact hapart d (by rw [hl]; simp) b hb
    · rw [hl] at hparts
      exact ((pairwise_append.1 hparts).2.2 b hb d (mem_cons_self ..)).symm
  · rw [mem_insert, hmem, mem_append, mem_singleton]
    tauto

theorem regular_of_meets (h : f.Ok) (hproper : f.Proper)
    (hfound : f.Meets region found) (hne : found ≠ []) : f.Regular := by
  refine ⟨h, ?_⟩
  rcases hproper with hsolid | ⟨c, hc⟩
  · exact hsolid
  · obtain ⟨b, hb⟩ := exists_mem_of_ne_nil found hne
    obtain ⟨hbox, hmeet⟩ := (hfound.2 b).1 hb
    obtain ⟨p, hp⟩ := not_forall_not.1 hmeet
    intro b' hb'
    rw [hc, mem_singleton] at hbox hb'
    rw [hb', ← hbox]
    exact ⟨p, hp.1⟩

theorem not_hasBit_of_not_mem (hfound : f.Meets region found) (hb : b ∈ f.boxes) (hnot : b ∉ found)
    {p : BitPosition} (hp : b.HasBit p) :
    ¬region.HasBit p := by
  have hapart : b.Apart region := by
    by_contra hmeet
    exact hnot ((hfound.2 b).2 ⟨hb, hmeet⟩)
  exact fun hpr => hapart p ⟨hp, hpr⟩

theorem returns_subtract (h : f.Ok) (hproper : f.Proper) :
    Returns (f.subtract region) fun f' => f'.Ok ∧ f'.Proper ∧ (f.Solid → f'.Solid) ∧
      ∀ p, f'.Has p ↔ f.Has p ∧ ¬region.HasBit p := by
  refine Returns.bind (returns_overlapping h hproper) fun found hfound => ?_
  by_cases hne : found = []
  · subst hne
    refine Returns.pure ⟨h, hproper, id, fun p => (and_iff_left_of_imp ?_).symm⟩
    rintro ⟨b, hb, hp⟩
    exact not_hasBit_of_not_mem hfound hb not_mem_nil hp
  · have hregular := regular_of_meets h hproper hfound hne
    -- the boxes left over, and the parts of those already cut
    refine (Returns.foldlM (Q := fun done (f' : Fragments) => f'.Regular ∧ ∀ b, b ∈ f'.boxes ↔
      (b ∈ f.boxes ∧ b ∉ done) ∨ ∃ x ∈ done, b ∈ complement x region) ⟨hregular, by simp⟩ ?_).mono
      fun f' hf' => ⟨hf'.1.toOk, .inl hf'.1.solid, fun _ => hf'.1.solid, fun p => ?_⟩
    · rintro done x rest f' hl ⟨hf', hmem⟩
      have hx : x ∈ found := by rw [hl]; simp
      have hxBox := ((hfound.2 x).1 hx).1
      have hxDone : x ∉ done := by
        have hnodup := hfound.1
        rw [hl] at hnodup
        intro hin
        exact (nodup_append.1 hnodup).2.2 x hin x (mem_cons_self ..) rfl
      refine (returns_insertAll hf'.remove (pairwise_complement x region)
        (fun d hd => inhabited_of_mem_complement (hregular.solid x hxBox) hd) ?_).mono
        fun f'' hf'' => ⟨hf''.1, fun b => ?_⟩
      · intro d hd b hb p ⟨hpd, hpb⟩
        have hpx := (exists_mem_complement.1 ⟨d, hd, hpd⟩).1
        obtain ⟨hbx, hb⟩ := (mem_remove hf'.toOk).1 hb
        rcases (hmem b).1 hb with ⟨hb, -⟩ | ⟨y, hy, hb⟩
        · exact h.apart_of_ne hxBox hb (Ne.symm hbx) p ⟨hpx, hpb⟩
        · have hyBox := ((hfound.2 y).1 (by rw [hl]; simp [hy])).1
          have hpy := (exists_mem_complement.1 ⟨b, hb, hpb⟩).1
          exact h.apart_of_ne hxBox hyBox (fun heq => hxDone (heq ▸ hy)) p ⟨hpx, hpy⟩
      · rw [hf''.2, mem_remove hf'.toOk, hmem, mem_append, mem_singleton]
        have hcut : ∀ y ∈ done, x ∉ complement y region := by
          intro y hy hin
          obtain ⟨p, hp⟩ := hregular.solid x hxBox
          have hyBox := ((hfound.2 y).1 (by rw [hl]; simp [hy])).1
          exact h.apart_of_ne hxBox hyBox (fun heq => hxDone (heq ▸ hy)) p
            ⟨hp, (exists_mem_complement.1 ⟨x, hin, hp⟩).1⟩
        grind
    · simp only [Has, AnyBit, hf'.2]
      constructor
      · rintro ⟨b, ⟨hb, hnot⟩ | ⟨x, hx, hb⟩, hp⟩
        · exact ⟨⟨b, hb, hp⟩, not_hasBit_of_not_mem hfound hb hnot hp⟩
        · obtain ⟨hpx, hpr⟩ := exists_mem_complement.1 ⟨b, hb, hp⟩
          exact ⟨⟨x, ((hfound.2 x).1 hx).1, hpx⟩, hpr⟩
      · rintro ⟨⟨b, hb, hp⟩, hpr⟩
        by_cases hin : b ∈ found
        · obtain ⟨d, hd, hpd⟩ := exists_mem_complement.2 ⟨hp, hpr⟩
          exact ⟨d, .inr ⟨b, hin, hd⟩, hpd⟩
        · exact ⟨b, .inl ⟨hb, hin⟩, hp⟩

theorem returns_add (h : f.Regular) (hd : d.Inhabited) :
    Returns (f.add d) fun f' => f'.Regular ∧ ∀ p, f'.Has p ↔ f.Has p ∨ d.HasBit p := by
  refine Returns.bind (returns_overlapping h.toOk (.inl h.solid)) fun existing hexisting => ?_
  have hbit : ∀ p, AnyBit (complementAll [d] existing) p ↔ d.HasBit p ∧ ¬AnyBit existing p := by
    intro p
    rw [anyBit_complementAll]
    simp [AnyBit]
  refine (returns_insertAll h (pairwise_complementAll (pairwise_singleton _ _))
    (fun b hb => inhabited_of_mem_complementAll (by simpa using hd) hb) ?_).mono
    fun f' hf' => ⟨hf'.1, fun p => ?_⟩
  · intro c hc b hb p ⟨hpc, hpb⟩
    obtain ⟨hpd, hnot⟩ := (hbit p).1 ⟨c, hc, hpc⟩
    exact hnot ⟨b, (hexisting.2 b).2 ⟨hb, fun hapart => hapart p ⟨hpb, hpd⟩⟩, hpb⟩
  · have hparts : f'.Has p ↔ f.Has p ∨ AnyBit (complementAll [d] existing) p := by
      simp only [Has, AnyBit, hf'.2, or_and_right, exists_or]
    have hfound : AnyBit existing p → f.Has p :=
      fun ⟨b, hb, hp⟩ => ⟨b, ((hexisting.2 b).1 hb).1, hp⟩
    rw [hparts, hbit]
    tauto

theorem mem_foldl_insert : b ∈ (boxes.foldl insert f).boxes ↔ b ∈ boxes ∨ b ∈ f.boxes := by
  induction boxes generalizing f with
  | nil => simp
  | cons d boxes ih =>
    rw [foldl_cons, ih, mem_insert, mem_cons]
    tauto

theorem regular_foldl_insert {boxes : List PositionDomain} (hboxes : ∀ b ∈ boxes, b.Inhabited)
    (hapart : ∀ a ∈ boxes, ∀ b ∈ boxes, a ≠ b → a.Apart b) (h : f.Regular)
    (hf : ∀ a ∈ boxes, ∀ b ∈ f.boxes, b ≠ a → a.Apart b) : (boxes.foldl insert f).Regular := by
  induction boxes generalizing f with
  | nil => exact h
  | cons d boxes ih =>
    refine ih (fun b hb => hboxes b (mem_cons_of_mem _ hb)) (fun a ha b hb => hapart a
      (mem_cons_of_mem _ ha) b (mem_cons_of_mem _ hb)) ⟨?_, ?_⟩ fun a ha b hb hne => ?_
    · exact ok_insert h.toOk fun b hb hne => hf d (mem_cons_self ..) b hb hne
    · intro b hb
      rcases mem_insert.1 hb with rfl | hb
      · exact hboxes b (mem_cons_self ..)
      · exact h.solid b hb
    · rcases mem_insert.1 hb with rfl | hb
      · exact hapart a (mem_cons_of_mem _ ha) b (mem_cons_self ..) (Ne.symm hne)
      · exact hf a (mem_cons_of_mem _ ha) b hb hne

theorem foldl_remove (h : f.Ok) :
    (boxes.foldl remove f).Ok ∧ ∀ b, b ∈ (boxes.foldl remove f).boxes ↔
      b ∉ boxes ∧ b ∈ f.boxes := by
  induction boxes generalizing f with
  | nil => simpa using h
  | cons d boxes ih =>
    rw [foldl_cons]
    refine ⟨(ih (ok_remove h)).1, fun b => ?_⟩
    rw [(ih (ok_remove h)).2, mem_remove h, mem_cons]
    tauto

theorem returns_splitOff (h : f.Ok) (hproper : f.Proper) (bounds : Option PositionDomain) :
    Returns (f.splitOff bounds) fun r => r.1.Regular ∧ r.2.Ok ∧ r.2.Proper ∧ (f.Solid → r.2.Solid) ∧
      (r.1.isEmpty = false → f.Solid) ∧ (∀ p, f.Has p ↔ r.1.Has p ∨ r.2.Has p) ∧
      ∀ p, r.2.Has p → ∀ region ∈ bounds, ¬region.HasBit p := by
  cases bounds with
  | none =>
    refine Returns.pure ⟨regular_empty, h, hproper, id, ?_, fun p => ?_, by simp⟩
    · intro hne
      cases hne
    · simp [Has, AnyBit, empty]
  | some region =>
    refine Returns.bind (returns_overlapping h hproper) fun found hfound => Returns.pure ?_
    obtain ⟨hok, hmem⟩ := foldl_remove found h
    have hinside : ∀ b, b ∈ (found.foldl insert empty).boxes ↔ b ∈ found := by
      intro b
      rw [mem_foldl_insert]
      simp [empty]
    have hinhabited : ∀ b ∈ found, b.Inhabited := by
      intro b hb
      obtain ⟨p, hp⟩ := not_forall_not.1 ((hfound.2 b).1 hb).2
      exact ⟨p, hp.1⟩
    have hsolid : f.Solid → (found.foldl remove f).Solid :=
      fun hsolid b hb => hsolid b ((hmem b).1 hb).2
    refine ⟨regular_foldl_insert hinhabited (fun a ha b hb hne => h.apart_of_ne
      ((hfound.2 a).1 ha).1 ((hfound.2 b).1 hb).1 hne) regular_empty
      (fun _ _ _ hb => absurd hb not_mem_nil), hok, ?_, hsolid, ?_, fun p => ?_, ?_⟩
    · by_cases hne : found = []
      · rw [hne]
        exact hproper
      · exact .inl (hsolid (regular_of_meets h hproper hfound hne).solid)
    · intro hne
      by_cases hnil : found = []
      · rw [hnil] at hne
        cases hne
      · exact (regular_of_meets h hproper hfound hnil).solid
    · simp only [Has, AnyBit, hinside, hmem]
      constructor
      · rintro ⟨b, hb, hp⟩
        by_cases hin : b ∈ found
        · exact .inl ⟨b, hin, hp⟩
        · exact .inr ⟨b, ⟨hin, hb⟩, hp⟩
      · rintro (⟨b, hb, hp⟩ | ⟨b, hb, hp⟩)
        · exact ⟨b, ((hfound.2 b).1 hb).1, hp⟩
        · exact ⟨b, hb.2, hp⟩
    · rintro p ⟨b, hb, hp⟩ region' hregion
      obtain rfl := some.inj hregion
      obtain ⟨hnot, hb⟩ := (hmem b).1 hb
      exact not_hasBit_of_not_mem hfound hb hnot hp

end Fragments
end Veryl.Analyzer.CombLoopDetect
