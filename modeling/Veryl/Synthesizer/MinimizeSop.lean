import Veryl.Synthesizer.Cell

/-!
Two-level minimisation. A seed drops every bit that keeps it off the off-set, so each cube it
ends with covers the seed and no off-minterm; the greedy cover then takes cubes while some
on-minterm is uncovered, and the cube of its own seed always covers one more.
-/

namespace Veryl.Synthesizer.Sop

open List

variable {onUniq : List ℕ} {covered : List Bool}

/-- A value and the bits of it that count. -/
abbrev Cube := ℕ × ℕ

variable {primes : List Cube}

def selMask (selWidth : ℕ) : ℕ := if 64 ≤ selWidth then 2 ^ 64 - 1 else 2 ^ selWidth - 1

/-- Drops neighbours that are equal. -/
def dedup : List ℕ → List ℕ
  | a :: b :: l => if a = b then dedup (b :: l) else a :: dedup (b :: l)
  | l => l

def hitsOff (off : List ℕ) (value mask : ℕ) : Bool := off.any fun o => o &&& mask == value &&& mask

/-- Drops a bit if no off-minterm is met then; the shift is one of a machine word. -/
def dropBit (off : List ℕ) (cube : Cube) (bit : ℕ) : Cube :=
  let candidateMask := cube.2 &&& ((2 ^ 64 - 1) ^^^ (1 <<< (bit % 64)))
  if hitsOff off cube.1 candidateMask then cube else (cube.1 &&& candidateMask, candidateMask)

/-- The cube that a seed is expanded to. -/
def expandSeed (off : List ℕ) (selWidth seed : ℕ) : Cube :=
  (List.range selWidth).foldl (dropBit off) (seed, selMask selWidth)

def pushPrime (primes : List Cube) (cube : Cube) : List Cube :=
  if primes.any (fun p => p.2 == cube.2 && p.1 == cube.1) then primes else primes ++ [cube]

def primesOf (off : List ℕ) (selWidth : ℕ) (onUniq : List ℕ) : List Cube :=
  onUniq.foldl (fun primes seed => pushPrime primes (expandSeed off selWidth seed)) []

def covers (cube : Cube) (o : ℕ) : Bool := o &&& cube.2 == cube.1

/-- The uncovered minterms that a cube covers. -/
def countNew (onUniq : List ℕ) (covered : List Bool) (cube : Cube) : ℕ :=
  ((onUniq.zip covered).filter fun oc => !oc.2 && covers cube oc.1).length

/-- The first of the cubes that cover the most. -/
def bestOf (count : Cube → ℕ) (best : Option (Cube × ℕ)) (cube : Cube) : Option (Cube × ℕ) :=
  match best with
  | none => if 0 < count cube then some (cube, count cube) else none
  | some (p, c) => if c < count cube then some (cube, count cube) else some (p, c)

def bestPrime (onUniq : List ℕ) (covered : List Bool) (primes : List Cube) : Option (Cube × ℕ) :=
  primes.foldl (bestOf (countNew onUniq covered)) none

def markCovered (onUniq : List ℕ) (covered : List Bool) (cube : Cube) : List Bool :=
  List.zipWith (fun o c => c || covers cube o) onUniq covered

theorem foldl_bestOf (count : Cube → ℕ) (primes : List Cube) (best : Option (Cube × ℕ))
    (hbest : ∀ b ∈ best, 0 < count b.1) :
    (∀ b ∈ primes.foldl (bestOf count) best, 0 < count b.1 ∧ (b.1 ∈ primes ∨ b ∈ best)) ∧
      (primes.foldl (bestOf count) best = none → best = none ∧ ∀ p ∈ primes, count p = 0) := by
  induction primes generalizing best with
  | nil => exact ⟨fun b hb => ⟨hbest b hb, Or.inr hb⟩, fun h => ⟨h, nofun⟩⟩
  | cons p primes ih =>
    have hstep : ∀ b ∈ bestOf count best p, 0 < count b.1 ∧ (b.1 = p ∨ b ∈ best) := by
      intro b hb
      unfold bestOf at hb
      split at hb
      · split at hb
        · rename_i hpos
          obtain rfl := Option.some.inj hb
          exact ⟨hpos, Or.inl rfl⟩
        · cases hb
      · rename_i q c
        split at hb
        · rename_i hlt
          obtain rfl := Option.some.inj hb
          exact ⟨Nat.zero_lt_of_lt hlt, Or.inl rfl⟩
        · exact ⟨hbest b hb, Or.inr hb⟩
    obtain ⟨hsome, hnone⟩ := ih (bestOf count best p) fun b hb => (hstep b hb).1
    refine ⟨fun b hb => ?_, fun h => ?_⟩
    · obtain ⟨hpos, hmem⟩ := hsome b hb
      refine ⟨hpos, ?_⟩
      rcases hmem with hmem | hmem
      · exact Or.inl (mem_cons_of_mem _ hmem)
      · rcases (hstep b hmem).2 with heq | hold
        · exact Or.inl (heq ▸ mem_cons_self)
        · exact Or.inr hold
    · obtain ⟨hbefore, hzero⟩ := hnone h
      unfold bestOf at hbefore
      split at hbefore
      · split at hbefore
        · cases hbefore
        · rename_i hcount
          exact ⟨rfl, forall_mem_cons.2 ⟨by omega, hzero⟩⟩
      · split at hbefore <;> cases hbefore

theorem bestPrime_some {b : Cube × ℕ} (h : bestPrime onUniq covered primes = some b) :
    0 < countNew onUniq covered b.1 ∧ b.1 ∈ primes := by
  obtain ⟨hsome, -⟩ := foldl_bestOf (countNew onUniq covered) primes none nofun
  obtain ⟨hpos, hmem⟩ := hsome b h
  exact ⟨hpos, hmem.resolve_right nofun⟩

theorem bestPrime_none (h : bestPrime onUniq covered primes = none) :
    ∀ p ∈ primes, countNew onUniq covered p = 0 :=
  ((foldl_bestOf (countNew onUniq covered) primes none nofun).2 h).2

theorem count_markCovered (onUniq : List ℕ) (covered : List Bool) (cube : Cube) :
    (markCovered onUniq covered cube).count false + countNew onUniq covered cube ≤
      covered.count false := by
  induction onUniq generalizing covered with
  | nil => exact Nat.zero_le _
  | cons o onUniq ih =>
    cases covered with
    | nil => exact Nat.zero_le _
    | cons c covered =>
      have hrest := ih covered
      unfold markCovered countNew at *
      rw [zipWith_cons_cons, zip_cons_cons, filter_cons, count_cons, count_cons]
      cases c <;> cases covers cube o <;> simp <;> omega

/-- The greedy set cover. -/
def coverLoop (onUniq : List ℕ) (primes : List Cube) (covered : List Bool) (chosen : List Cube) :
    List Cube :=
  if covered.all id then chosen
  else
    match _h : bestPrime onUniq covered primes with
    | some b => coverLoop onUniq primes (markCovered onUniq covered b.1) (chosen ++ [b.1])
    | none => chosen
termination_by covered.count false
decreasing_by
  have hpos := (bestPrime_some ‹_›).1
  have hmark := count_markCovered onUniq covered b.1
  omega

/-- Cubes that cover the on-minterms and none of the off-minterms. -/
def minimizeSopCubes (on off : List ℕ) (selWidth : ℕ) : List Cube :=
  if on = [] then []
  else
    let onUniq := dedup ((on.map (· &&& selMask selWidth)).mergeSort)
    coverLoop onUniq (primesOf off selWidth onUniq) (replicate onUniq.length false) []

theorem mem_dedup {o : ℕ} (l : List ℕ) : o ∈ dedup l ↔ o ∈ l := by
  induction l using dedup.induct with
  | case1 a l ih =>
    rw [dedup, if_pos rfl, ih]
    simp
  | case2 a b l hne ih => rw [dedup, if_neg hne, mem_cons, ih, mem_cons (a := o) (b := a)]
  | case3 l hl => rw [dedup]; exact hl

variable {off : List ℕ} {selWidth seed : ℕ} {cube : Cube}

/-- What a seed's cube keeps while it is expanded. -/
structure Expands (off : List ℕ) (selWidth seed : ℕ) (cube : Cube) : Prop where
  inside : cube.2 &&& selMask selWidth = cube.2
  covers : seed &&& cube.2 = cube.1
  avoids : ∀ o ∈ off, o &&& cube.2 ≠ cube.1

theorem Expands.dropBit (h : Expands off selWidth seed cube) (bit : ℕ) :
    Expands off selWidth seed (dropBit off cube bit) := by
  unfold Sop.dropBit
  dsimp only
  split
  · exact h
  rename_i hhits
  generalize (2 ^ 64 - 1) ^^^ (1 <<< (bit % 64)) = keep at hhits ⊢
  have hvalue : cube.1 &&& (cube.2 &&& keep) = seed &&& (cube.2 &&& keep) := by
    rw [← h.covers, Nat.and_assoc, ← Nat.and_assoc cube.2 cube.2, Nat.and_self]
  refine ⟨?_, hvalue.symm, fun o ho heq => hhits ?_⟩
  · show cube.2 &&& keep &&& selMask selWidth = cube.2 &&& keep
    rw [Nat.and_assoc, Nat.and_comm keep, ← Nat.and_assoc, h.inside]
  · exact any_eq_true.2 ⟨o, ho, beq_iff_eq.2 heq⟩

theorem expands_expandSeed (hseed : seed &&& selMask selWidth = seed)
    (hoff : ∀ o ∈ off, o &&& selMask selWidth ≠ seed) :
    Expands off selWidth seed (expandSeed off selWidth seed) := by
  have hfold : ∀ (bits : List ℕ) (cube : Cube), Expands off selWidth seed cube →
      Expands off selWidth seed (bits.foldl (dropBit off) cube) := by
    intro bits
    induction bits with
    | nil => exact fun _ h => h
    | cons bit bits ih => exact fun cube h => ih _ (h.dropBit bit)
  exact hfold _ _ ⟨Nat.and_self _, hseed, hoff⟩

theorem mem_pushPrime {p : Cube} : p ∈ pushPrime primes cube ↔ p ∈ primes ∨ p = cube := by
  unfold pushPrime
  split
  · rename_i hany
    obtain ⟨q, hq, heq⟩ := any_eq_true.1 hany
    simp only [Bool.and_eq_true, beq_iff_eq] at heq
    obtain rfl : q = cube := Prod.ext heq.2 heq.1
    exact ⟨Or.inl, fun h => h.elim id fun h => h ▸ hq⟩
  · rw [mem_append, mem_singleton]

theorem mem_primesOf {p : Cube} :
    p ∈ primesOf off selWidth onUniq ↔ ∃ seed ∈ onUniq, p = expandSeed off selWidth seed := by
  have hfold : ∀ (seeds : List ℕ) (primes : List Cube),
      p ∈ seeds.foldl (fun primes seed => pushPrime primes (expandSeed off selWidth seed)) primes ↔
        p ∈ primes ∨ ∃ seed ∈ seeds, p = expandSeed off selWidth seed := by
    intro seeds
    induction seeds with
    | nil => simp
    | cons seed seeds ih =>
      intro primes
      rw [foldl_cons, ih, mem_pushPrime, or_assoc]
      simp
  rw [primesOf, hfold]
  simp

theorem countNew_pos {o : ℕ}
    (hmem : (o, false) ∈ onUniq.zip covered) (hcovers : covers cube o = true) :
    0 < countNew onUniq covered cube :=
  length_pos_of_mem (mem_filter.2 ⟨hmem, by simp [hcovers]⟩)

theorem zip_markCovered (onUniq : List ℕ) (covered : List Bool) (cube : Cube) :
    onUniq.zip (markCovered onUniq covered cube) =
      (onUniq.zip covered).map fun oc => (oc.1, oc.2 || covers cube oc.1) := by
  induction onUniq generalizing covered with
  | nil => rfl
  | cons o onUniq ih =>
    cases covered with
    | nil => rfl
    | cons c covered => exact congrArg _ (ih covered)

theorem coverLoop_spec (onUniq : List ℕ) (primes : List Cube)
    (hprimes : ∀ o ∈ onUniq, ∃ p ∈ primes, covers p o = true) (covered : List Bool)
    (chosen : List Cube) (hlen : onUniq.length = covered.length)
    (hchosen : ∀ cube ∈ chosen, cube ∈ primes)
    (hcovered : ∀ o, (o, true) ∈ onUniq.zip covered → ∃ cube ∈ chosen, covers cube o = true) :
    (∀ cube ∈ coverLoop onUniq primes covered chosen, cube ∈ primes) ∧
      ∀ o ∈ onUniq, ∃ cube ∈ coverLoop onUniq primes covered chosen, covers cube o = true := by
  have hpair : ∀ o ∈ onUniq, ∃ c, (o, c) ∈ onUniq.zip covered := fun o ho => by
    rw [← map_fst_zip hlen.le] at ho
    obtain ⟨oc, hoc, rfl⟩ := mem_map.1 ho
    exact ⟨oc.2, hoc⟩
  induction covered, chosen using coverLoop.induct onUniq primes with
  | case1 covered chosen hall =>
    rw [coverLoop, if_pos hall]
    refine ⟨hchosen, fun o ho => ?_⟩
    obtain ⟨c, hc⟩ := hpair o ho
    obtain rfl : c = true := all_eq_true.1 hall c (of_mem_zip hc).2
    exact hcovered o hc
  | case2 covered chosen hall b hb ih =>
    obtain ⟨-, hmem⟩ := bestPrime_some hb
    have hstep : coverLoop onUniq primes covered chosen =
        coverLoop onUniq primes (markCovered onUniq covered b.1) (chosen ++ [b.1]) := by
      rw [coverLoop, if_neg hall]
      split
      · rename_i b' hb'
        obtain rfl := Option.some.inj (hb.symm.trans hb')
        rfl
      · rename_i hnone
        cases hb.symm.trans hnone
    rw [hstep]
    refine ih ?_ ?_ ?_ ?_
    · rw [markCovered, length_zipWith, ← hlen, Nat.min_self]
    · intro cube hcube
      rcases mem_append.1 hcube with hcube | hcube
      · exact hchosen cube hcube
      · exact mem_singleton.1 hcube ▸ hmem
    · intro o ho
      rw [zip_markCovered] at ho
      obtain ⟨oc, hoc, heq⟩ := mem_map.1 ho
      obtain ⟨rfl, hset⟩ := Prod.mk.inj heq
      rcases Bool.or_eq_true_iff.1 hset with hold | hnew
      · obtain ⟨cube, hcube, hcovers⟩ := hcovered oc.1 (hold ▸ hoc)
        exact ⟨cube, mem_append_left _ hcube, hcovers⟩
      · exact ⟨b.1, mem_append_right _ mem_cons_self, hnew⟩
    · intro o ho
      obtain ⟨c, hc⟩ := hpair o ho
      exact ⟨_, by
        rw [zip_markCovered]
        exact mem_map_of_mem hc⟩
  | case3 covered chosen hall hnone =>
    obtain ⟨c, hc, hfalse⟩ : ∃ c ∈ covered, c = false := by simpa using hall
    rw [← List.map_snd_zip hlen.ge] at hc
    obtain ⟨⟨o, c'⟩, hoc, rfl⟩ := mem_map.1 hc
    obtain ⟨p, hp, hcovers⟩ := hprimes o (of_mem_zip hoc).1
    obtain rfl : c' = false := hfalse
    have hzero := bestPrime_none hnone p hp
    have hpos := countNew_pos hoc hcovers
    omega

/-- The cubes cover every on-minterm and no off-minterm. -/
theorem minimizeSopCubes_exact (on off : List ℕ) (selWidth : ℕ)
    (hdisjoint : ∀ m ∈ on, ∀ o ∈ off, m &&& selMask selWidth ≠ o &&& selMask selWidth) :
    (∀ m ∈ on, ∃ cube ∈ minimizeSopCubes on off selWidth, covers cube m = true) ∧
      ∀ o ∈ off, ∀ cube ∈ minimizeSopCubes on off selWidth, covers cube o = false := by
  unfold minimizeSopCubes
  split
  · rename_i hnil
    subst hnil
    exact ⟨nofun, fun _ _ => nofun⟩
  · have hmem : ∀ seed, seed ∈ dedup ((on.map (· &&& selMask selWidth)).mergeSort) ↔
        ∃ m ∈ on, m &&& selMask selWidth = seed := fun seed => by
      rw [mem_dedup, mem_mergeSort, mem_map]
    generalize dedup ((on.map (· &&& selMask selWidth)).mergeSort) = onUniq at hmem ⊢
    have hexpands : ∀ seed ∈ onUniq, Expands off selWidth seed (expandSeed off selWidth seed) := by
      intro seed hseed
      obtain ⟨m, hm, rfl⟩ := (hmem seed).1 hseed
      refine expands_expandSeed (by rw [Nat.and_assoc, Nat.and_self]) fun o ho heq => ?_
      exact hdisjoint m hm o ho heq.symm
    obtain ⟨hprimes, hall⟩ := coverLoop_spec onUniq (primesOf off selWidth onUniq)
      (fun seed hseed => ⟨expandSeed off selWidth seed,
        mem_primesOf.2 ⟨seed, hseed, rfl⟩, beq_iff_eq.2 (hexpands seed hseed).covers⟩)
      (replicate onUniq.length false) [] length_replicate.symm nofun
      fun o ho => absurd (eq_of_mem_replicate (of_mem_zip ho).2) (by decide)
    have hcube : ∀ cube ∈ coverLoop onUniq (primesOf off selWidth onUniq)
        (replicate onUniq.length false) [],
        cube.2 &&& selMask selWidth = cube.2 ∧ ∀ o ∈ off, o &&& cube.2 ≠ cube.1 := by
      intro cube hcube
      obtain ⟨seed, hseed, rfl⟩ := mem_primesOf.1 (hprimes cube hcube)
      exact ⟨(hexpands seed hseed).inside, (hexpands seed hseed).avoids⟩
    refine ⟨fun m hm => ?_, fun o ho cube hmem' => ?_⟩
    · obtain ⟨cube, hin, hcovers⟩ := hall _ ((hmem _).2 ⟨m, hm, rfl⟩)
      refine ⟨cube, hin, ?_⟩
      have heq := beq_iff_eq.1 hcovers
      rw [Nat.and_assoc, Nat.and_comm (selMask selWidth), (hcube cube hin).1] at heq
      exact beq_iff_eq.2 heq
    · exact beq_eq_false_iff_ne.2 ((hcube cube hmem').2 o ho)

/-- The carry of a full adder, from its truth table. -/
theorem minimizeSopCubes_majority :
    (∀ m ∈ [3, 5, 6, 7], ∃ cube ∈ minimizeSopCubes [3, 5, 6, 7] [0, 1, 2, 4] 3,
      covers cube m = true) ∧
      ∀ o ∈ [0, 1, 2, 4], ∀ cube ∈ minimizeSopCubes [3, 5, 6, 7] [0, 1, 2, 4] 3,
        covers cube o = false :=
  minimizeSopCubes_exact [3, 5, 6, 7] [0, 1, 2, 4] 3 (by decide)

end Veryl.Synthesizer.Sop
