import Veryl.Synthesizer.Balance

/-!
The walk over an acyclic module ends, with the level of every net.
-/

namespace Veryl.Synthesizer

open List Option Function

variable {n : NetId}

/-- Every net lies one gate after its latest input. -/
def GateModule.Levels (m : GateModule) (level : NetId → ℕ) : Prop :=
  ∀ n : ℕ, n < m.nets.length → level n = match m.driverCell n with
    | some (_, c) => arrival c level
    | none => 0

section Arrival

variable {c : Cell} {level level' : NetId → ℕ}

theorem arrival_congr (h : ∀ n ∈ c.inputs, level n = level' n) :
    arrival c level = arrival c level' := by
  rw [arrival, arrival, map_congr_left h]

theorem arrival_mono (h : ∀ n ∈ c.inputs, level n ≤ level' n) :
    arrival c level ≤ arrival c level' := by
  refine Nat.add_le_add_right (max_le_of_forall_le _ _ fun l hl => ?_) _
  obtain ⟨n, hn, rfl⟩ := List.mem_map.1 hl
  exact le_max_of_le' 0 (List.mem_map_of_mem hn) (h n hn)

theorem le_arrival (hn : n ∈ c.inputs) :
    level n + (if c.kind = .buf then 0 else 1) ≤ arrival c level :=
  Nat.add_le_add_right (le_max_of_le' 0 (List.mem_map_of_mem hn) (Nat.le_refl _)) _

theorem arrival_pair {x y : NetId} (hinputs : c.inputs = [x, y]) (hkind : c.kind ≠ .buf) :
    arrival c level = max (level x) (level y) + 1 := by
  rw [arrival, if_neg hkind, hinputs]
  simp

end Arrival

section Walk

variable {m : GateModule} {level level' level'' : NetId → Option ℕ} {r : NetId → ℕ}

/-- Levels once resolved stay. -/
def Extends (level level' : NetId → Option ℕ) : Prop :=
  ∀ n l, level n = some l → level' n = some l

theorem Extends.trans (h : Extends level level') (h' : Extends level' level'') :
    Extends level level'' := fun n l hl => h' n l (h n l hl)

theorem Extends.isSome (h : Extends level level') (hn : (level n).isSome) : (level' n).isSome := by
  obtain ⟨l, hl⟩ := isSome_iff_exists.1 hn
  rw [h n l hl]
  rfl

theorem Extends.levelAt_eq (h : Extends level level') (hn : (level n).isSome) :
    levelAt level' n = levelAt level n := by
  obtain ⟨l, hl⟩ := isSome_iff_exists.1 hn
  rw [levelAt, levelAt, h n l hl, hl]

theorem extends_update (hn : level n = none) (l : ℕ) :
    Extends level (Function.update level n (some l)) := fun k j hk => by
  rw [update_of_ne fun heq => by
    rw [heq, hn] at hk
    cases hk]
  exact hk

/-- What is resolved was computed from levels that are resolved. -/
def Resolves (m : GateModule) (level : NetId → Option ℕ) : Prop :=
  ∀ n l, level n = some l → match m.driverCell n with
    | some (_, c) => (∀ k ∈ c.inputs, (level k).isSome) ∧ l = arrival c (levelAt level)
    | none => l = 0

theorem Resolves.update (h : Resolves m level) (hn : level n = none) {l : ℕ}
    (hnew : match m.driverCell n with
      | some (_, c) => (∀ k ∈ c.inputs, (level k).isSome) ∧ l = arrival c (levelAt level)
      | none => l = 0) :
    Resolves m (Function.update level n (some l)) := by
  have hext := extends_update hn l
  have hkeep : ∀ (k : NetId) (j : ℕ), (match m.driverCell k with
      | some (_, c) => (∀ k ∈ c.inputs, (level k).isSome) ∧ j = arrival c (levelAt level)
      | none => j = 0) → match m.driverCell k with
      | some (_, c) => (∀ k ∈ c.inputs, (Function.update level n (some l) k).isSome) ∧
          j = arrival c (levelAt (Function.update level n (some l)))
      | none => j = 0 := fun k j hk => by
    split
    · rename_i i c hdriver
      rw [hdriver] at hk
      exact ⟨fun x hx => hext.isSome (hk.1 x hx),
        hk.2.trans (arrival_congr fun x hx => (hext.levelAt_eq (hk.1 x hx)).symm)⟩
    · rename_i hdriver
      rwa [hdriver] at hk
  intro k j hk
  by_cases hkn : k = n
  · subst hkn
    rw [update_self] at hk
    obtain rfl := some.inj hk
    exact hkeep k l hnew
  · rw [update_of_ne hkn] at hk
    exact hkeep k j (h k j hk)

/-- A walk from a net on top of the stack: it ends with the net resolved and
touches nothing of higher rank. -/
structure Visits (m : GateModule) (r : NetId → ℕ) (n : NetId) (level : NetId → Option ℕ)
    (turns : ℕ) (level' : NetId → Option ℕ) : Prop where
  resolves : Resolves m level'
  grows : Extends level level'
  done : (level' n).isSome
  above : ∀ k : NetId, r n < r k → level' k = level k
  runs : ∀ more stack, levelsFrom m (turns + more) level (n :: stack) = levelsFrom m more level' stack

theorem find?_pending {before rest : List NetId} {x : NetId}
    (hbefore : ∀ k ∈ before, (level k).isSome) (hx : level x = none) :
    (before ++ x :: rest).find? (fun k => (level k).isNone) = some x := by
  rw [find?_append, find?_eq_none.2 fun k hk => by
    simpa using isSome_iff_ne_none.1 (hbefore k hk),
    find?_cons_of_pos (by rw [hx]; rfl)]
  rfl

theorem visits_cell {i : ℕ} {c : Cell} (hdriver : m.driverCell n = some (i, c))
    (hranks : ∀ x ∈ c.inputs, r x < r n)
    (ih : ∀ x ∈ c.inputs, ∀ level, Resolves m level → level x = none →
      ∃ turns level', Visits m r x level turns level') :
    ∀ (rest before : List NetId), c.inputs = before ++ rest → ∀ level, Resolves m level →
      level n = none → (∀ x ∈ before, (level x).isSome) →
      ∃ turns level', Visits m r n level turns level'
  | [], before, hsplit, level, hres, hn, hbefore => by
    rw [append_nil] at hsplit
    have hall : ∀ x ∈ c.inputs, (level x).isSome := by rwa [hsplit]
    have hfind : c.inputs.find? (fun k => (level k).isNone) = none :=
      find?_eq_none.2 fun k hk => by
        simpa using isSome_iff_ne_none.1 (hall k hk)
    refine ⟨1, Function.update level n (some (arrival c (levelAt level))),
      hres.update hn ?_, extends_update hn _, ?_, fun k hk => ?_, fun more stack => ?_⟩
    · rw [hdriver]
      exact ⟨hall, rfl⟩
    · rw [update_self]
      rfl
    · exact update_of_ne (fun heq => by rw [heq] at hk; exact Nat.lt_irrefl _ hk) _ _
    · rw [Nat.add_comm, levelsFrom, hdriver]
      dsimp only
      rw [hfind]
  | x :: rest, before, hsplit, level, hres, hn, hbefore => by
    have hsplit' : c.inputs = (before ++ [x]) ++ rest := by rw [hsplit, append_assoc]; rfl
    have hx : x ∈ c.inputs := by
      rw [hsplit]
      exact mem_append_right _ (mem_cons_self ..)
    have hpast : ∀ level', Extends level level' → (level' x).isSome →
        ∀ k ∈ before ++ [x], (level' k).isSome := fun level' hext hdone k hk => by
      rcases mem_append.1 hk with hk | hk
      · exact hext.isSome (hbefore k hk)
      · rwa [mem_singleton.1 hk]
    cases hlevel : level x with
    | some l =>
      exact visits_cell hdriver hranks ih rest _ hsplit' level hres hn
        (hpast level (fun _ _ h => h) (by rw [hlevel]; rfl))
    | none =>
      obtain ⟨turns, mid, hvisit⟩ := ih x hx level hres hlevel
      obtain ⟨turns', level', hrest⟩ := visits_cell hdriver hranks ih rest _ hsplit' mid
        hvisit.resolves ((hvisit.above n (hranks x hx)).trans hn)
        (hpast mid hvisit.grows hvisit.done)
      refine ⟨1 + turns + turns', level', hrest.resolves, hvisit.grows.trans hrest.grows,
        hrest.done, fun k hk => ?_, fun more stack => ?_⟩
      · exact (hrest.above k hk).trans (hvisit.above k (Nat.lt_trans (hranks x hx) hk))
      · rw [show 1 + turns + turns' + more = turns + (turns' + more) + 1 by omega, levelsFrom,
          hdriver]
        dsimp only
        rw [hsplit, find?_pending hbefore hlevel]
        exact (hvisit.runs _ _).trans (hrest.runs more stack)

theorem visits (hm : m.WellFormed) (hr : m.Ranks r) : ∀ (k : ℕ) (n : NetId), r n < k →
    ∀ level, Resolves m level → level n = none → ∃ turns level', Visits m r n level turns level'
  | k + 1, n, hk, level, hres, hn => by
    cases hdriver : m.driverCell n with
    | none =>
      refine ⟨1, Function.update level n (some 0), hres.update hn ?_, extends_update hn _, ?_,
        fun k hk => ?_, fun more stack => ?_⟩
      · rw [hdriver]
      · rw [update_self]
        rfl
      · exact update_of_ne (fun heq => by rw [heq] at hk; exact Nat.lt_irrefl _ hk) _ _
      · rw [Nat.add_comm, levelsFrom, hdriver]
    | some ic =>
      obtain ⟨i, c⟩ := ic
      obtain ⟨hc, hout⟩ := driverCell_eq hm hdriver
      have hranks : ∀ x ∈ c.inputs, r x < r n := fun x hx =>
        hout ▸ hr c (mem_of_getElem? hc) x hx
      exact visits_cell hdriver hranks
        (fun x hx => visits hm hr k x (by have := hranks x hx; omega)) c.inputs [] rfl level
        hres hn nofun

theorem foldlM_levelsVisit (hm : m.WellFormed) (hr : m.Ranks r) : ∀ (starts : List NetId)
    (level : NetId → Option ℕ), Resolves m level → ∃ turns level', Resolves m level' ∧
      Extends level level' ∧ (∀ n ∈ starts, (level' n).isSome) ∧
      ∀ more, starts.foldlM (levelsVisit m (turns + more)) level = some level'
  | [], level, hres => ⟨0, level, hres, fun _ _ h => h, nofun, fun _ => rfl⟩
  | n :: starts, level, hres => by
    have hvisit : ∃ turns mid, Resolves m mid ∧ Extends level mid ∧ (mid n).isSome ∧
        ∀ more, levelsVisit m (turns + more) level n = some mid := by
      cases hn : level n with
      | some l =>
        refine ⟨0, level, hres, fun _ _ h => h, by rw [hn]; rfl, fun more => ?_⟩
        rw [levelsVisit, hn]
        rfl
      | none =>
        obtain ⟨turns, mid, hvisit⟩ := visits hm hr _ n (Nat.lt_succ_self _) level hres hn
        refine ⟨turns, mid, hvisit.resolves, hvisit.grows, hvisit.done, fun more => ?_⟩
        rw [levelsVisit, hn]
        refine (hvisit.runs more []).trans ?_
        cases more <;> rfl
    obtain ⟨turns, mid, hmid, hgrows, hdone, hrun⟩ := hvisit
    obtain ⟨turns', level', hres', hgrows', hdone', hrun'⟩ := foldlM_levelsVisit hm hr starts mid hmid
    refine ⟨turns + turns', level', hres', hgrows.trans hgrows', fun k hk => ?_, fun more => ?_⟩
    · rcases mem_cons.1 hk with rfl | hk
      · exact hgrows'.isSome hdone
      · exact hdone' k hk
    · have hfirst := hrun (turns' + more)
      have hrest := hrun' (turns + more)
      rw [← Nat.add_assoc] at hfirst
      rw [← Nat.add_assoc, Nat.add_comm turns' turns] at hrest
      rw [foldlM_cons, hfirst]
      exact hrest

theorem computeLevels_ends (hm : m.WellFormed) (hr : m.Ranks r) :
    ∃ turns level, m.Levels level ∧ ∀ more, computeLevels (turns + more) m = some level := by
  obtain ⟨turns, level, hres, -, hdone, hrun⟩ := foldlM_levelsVisit hm hr
    (List.range m.nets.length) (fun _ => none) nofun
  refine ⟨turns, levelAt level, fun n hn => ?_, fun more => ?_⟩
  · obtain ⟨l, hl⟩ := isSome_iff_exists.1 (hdone n (mem_range.2 hn))
    have hlevel := hres n l hl
    have hat : levelAt level n = l := by
      rw [levelAt, hl]
      rfl
    rw [hat]
    split
    · rename_i i c hdriver
      rw [hdriver] at hlevel
      exact hlevel.2
    · rename_i hdriver
      rwa [hdriver] at hlevel
  · rw [computeLevels, hrun more]
    rfl

theorem levelsFrom_mono {out : NetId → Option ℕ} (more : ℕ) : ∀ (turns : ℕ)
    (level : NetId → Option ℕ) (stack : List NetId), levelsFrom m turns level stack = some out →
      levelsFrom m (turns + more) level stack = some out
  | turns, level, [], h => by
    cases turns <;> cases more <;> exact h
  | turns + 1, level, n :: stack, h => by
    rw [Nat.add_right_comm, levelsFrom]
    rw [levelsFrom] at h
    split
    · rename_i hdriver
      rw [hdriver] at h
      exact levelsFrom_mono more turns _ _ h
    · rename_i i c hdriver
      rw [hdriver] at h
      dsimp only at h
      split
      · rename_i inp hfind
        rw [hfind] at h
        exact levelsFrom_mono more turns _ _ h
      · rename_i hfind
        rw [hfind] at h
        exact levelsFrom_mono more turns _ _ h

theorem foldlM_mono {α β : Type*} {f g : β → α → Option β}
    (h : ∀ b a out, f b a = some out → g b a = some out) :
    ∀ (xs : List α) (b out : β), xs.foldlM f b = some out → xs.foldlM g b = some out
  | [], _, _, hout => hout
  | a :: xs, b, out, hout => by
    rw [foldlM_cons] at hout ⊢
    obtain ⟨mid, hmid, hrest⟩ := bind_eq_some_iff.1 hout
    exact bind_eq_some_iff.2 ⟨mid, h b a mid hmid, foldlM_mono h xs mid out hrest⟩

theorem computeLevels_mono {turns : ℕ} {level : NetId → ℕ} (more : ℕ)
    (h : computeLevels turns m = some level) : computeLevels (turns + more) m = some level := by
  obtain ⟨found, hfound, rfl⟩ := map_eq_some_iff.1 h
  refine map_eq_some_iff.2 ⟨found, foldlM_mono (fun level n out hout => ?_) _ _ _ hfound, rfl⟩
  unfold levelsVisit at hout ⊢
  split
  · rename_i hsome
    rwa [if_pos hsome] at hout
  · rename_i hnone
    rw [if_neg hnone] at hout
    exact levelsFrom_mono more turns level [n] hout

end Walk

end Veryl.Synthesizer
