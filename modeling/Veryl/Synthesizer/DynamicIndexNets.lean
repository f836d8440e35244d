import Veryl.Synthesizer.Reduce

/-!
The decoder of a write and the multiplexer trees of a read as they add cells to a netlist.
Their nets evaluate to what `DynamicIndex` computes, under every assignment that the netlist
admits.
-/

namespace Veryl.Synthesizer.Netlist

open List
open DynamicIndex (Dst IndexExpr chunks indexBitsFor)

section Builders

/-- Whether the nets, lowest first, spell a constant. -/
def eqConst (idx : List NetId) (k : ℕ) : Build NetId :=
  if idx = [] then pure (if k = 0 then netConst1 else netConst0)
  else do
    let bits ← (idx.mapIdx fun i n => (n, if k.testBit i then netConst1 else netConst0)).mapM
      fun p => cell .xnor2 [p.1, p.2]
    if k >>> idx.length ≠ 0 then pure netConst0 else reduceAnd bits

def muxZip (sel : NetId) (a b : List NetId) : Build (List NetId) :=
  (a.zip b).mapM fun p => cell .mux2 [sel, p.1, p.2]

/-- Merges neighbours; the last one may meet the padding. -/
def muxPairs (sel : NetId) (zero : List NetId) : List (List NetId) → Build (List (List NetId))
  | a :: b :: rest => do
    let merged ← muxZip sel a b
    let next ← muxPairs sel zero rest
    pure (merged :: next)
  | [a] => do
    let merged ← muxZip sel a zero
    pure [merged]
  | [] => pure []

def muxTree (zero : List NetId) : List (List NetId) → List NetId → Build (List NetId)
  | level, [] => pure (level.headD [])
  | level, sel :: sels =>
    if level.length = 1 then pure (level.headD [])
    else muxPairs sel zero level >>= fun next => muxTree zero next sels

def dynamicMuxTree (elements : List (List NetId)) (selBits : List NetId) : Build (List NetId) :=
  muxTree (replicate (elements.headD []).length netConst0) elements selBits

def buildConstant (value width : ℕ) : List NetId :=
  (List.range width).map fun i =>
    if decide (i < 64) && value.testBit i then netConst1 else netConst0

def combine : Option NetId → Option NetId → Build (Option NetId)
  | none, none => pure none
  | some em, none => pure (some em)
  | none, some bm => pure (some bm)
  | some em, some bm => some <$> cell .and2 [em, bm]

/-- One target bit; past the end of the variable nothing is written. -/
def writeTarget (newVal : NetId) (bit : ℕ) (bm : Option NetId) (current : List NetId)
    (element : ℕ × Option NetId) : Build (List NetId) :=
  let target := element.1 + bit
  if current.length ≤ target then pure current
  else do
    match ← combine element.2 bm with
    | none => pure (current.set target newVal)
    | some m =>
      let net ← cell .mux2 [m, netOf current target, newVal]
      pure (current.set target net)

variable (synthesizeExpr : IndexExpr → ℕ → Build (List NetId))

def selectNets (dst : Dst) : Build (List NetId) :=
  match dst.select with
  | .dynamicSingle idx => synthesizeExpr idx (indexBitsFor (dst.memberOffset + dst.memberWidth))
  | _ => pure []

/-- The places of a write: each with its match and its new value. -/
def bitPositions (dst : Dst) (src selectNets : List NetId) :
    Build (List (ℕ × Option NetId × NetId)) :=
  match dst.select with
  | .whole =>
    pure (((List.range' dst.memberOffset dst.memberWidth).zip src).map fun p => (p.1, none, p.2))
  | .static lo hi =>
    pure (((List.range' lo (hi + 1 - lo)).zip src).map fun p => (p.1, none, p.2))
  | .dynamicSingle _ => (List.range' dst.memberOffset dst.memberWidth).mapM fun b => do
    let m ← eqConst selectNets b
    pure (b, some m, src.headD netConst0)

def writeElements (dst : Dst) (src selectNets : List NetId) (elements : List (ℕ × Option NetId))
    (current : List NetId) : Build (List NetId) := do
  let positions ← bitPositions dst src selectNets
  positions.foldlM (fun current p => elements.foldlM (writeTarget p.2.2 p.1 p.2.1) current) current

/-- A run-time index needs an array of one dimension. -/
def writeToDst (dst : Dst) (src current : List NetId) : Option (Build (List NetId)) :=
  match dst.index with
  | .static flat => some do
    let bits ← selectNets synthesizeExpr dst
    writeElements dst src bits [(flat * dst.scalarWidth, none)] current
  | .dynamic indices =>
    if dst.shape.length ≠ 1 ∨ dst.shape.prod = 0 then none
    else
      match indices with
      | [] => none
      | e :: _ => some do
        let bits ← selectNets synthesizeExpr dst
        let idxNets ← synthesizeExpr e (indexBitsFor dst.shape.prod)
        let elements ← (List.range dst.shape.prod).mapM fun k => do
          let m ← eqConst idxNets k
          pure (k * dst.scalarWidth, some m)
        writeElements dst src bits elements current

/-- Resolves one dimension. A selector wider than the tree resolves is checked. -/
def selectDim (selector : List NetId × ℕ) (elements : List (List NetId)) :
    Synth (List (List NetId)) :=
  if Nat.clog 2 selector.2 < selector.1.length then
    (Synth.tried (compare (extend selector.1 (selector.1.length + 1) false)
      (buildConstant selector.2 (selector.1.length + 1)) .less false)).andThen fun valid =>
        Synth.built ((chunks selector.2 elements).mapM fun group => do
          let selected ← dynamicMuxTree group selector.1
          selected.mapM fun n => cell .and2 [n, valid])
  else
    Synth.built ((chunks selector.2 elements).mapM fun group => dynamicMuxTree group selector.1)

/-- The dimensions from the last one on. -/
def selectDims : List (List NetId × ℕ) → List (List NetId) → Synth (List (List NetId))
  | [], elements => Synth.done elements
  | selector :: rest, elements => (selectDims rest elements).andThen (selectDim selector)

def readArray (scalarWidth : ℕ) (shape : List ℕ) (indices : List IndexExpr)
    (srcNets : List NetId) : Synth (List NetId) :=
  let width := scalarWidth * (shape.drop indices.length).prod
  (Synth.built ((indices.zip shape).mapM fun p => do
    let selector ← synthesizeExpr p.1 (max (indexBitsFor p.2) p.1.width)
    pure (selector, p.2))).andThen fun selectors =>
      (selectDims selectors (chunks width srcNets)).andThen fun elements =>
        Synth.tried (match elements.getLast? with
          | some nets => .ok (pure nets)
          | none => .error "empty array selection")

end Builders

section Values

variable {ρ : NetId → Bool} {synthesizeExpr : IndexExpr → ℕ → Build (List NetId)}

theorem gives_map {α β γ : Type} {x : Build α} {f : α → β} {val : β → γ} {v : γ}
    (h : Gives ρ x fun a => val (f a) = v) : Gives ρ (f <$> x) fun b => val b = v := h

theorem gives_eqConst (idx : List NetId) (k : ℕ) :
    Gives ρ (eqConst idx k) fun n => ρ n = Synthesizer.eqConst (idx.map ρ) k := by
  refine gives_of_rails fun hgnd hvdd => ?_
  unfold eqConst Synthesizer.eqConst
  by_cases hnil : idx = []
  · subst hnil
    by_cases hk : k = 0 <;> exact gives_pure (by simp [hk, hgnd, hvdd])
  rw [if_neg hnil, if_neg (by simpa using hnil)]
  have hbits : Gives ρ ((idx.mapIdx fun i n => (n, if k.testBit i then netConst1 else
      netConst0)).mapM fun p => cell .xnor2 [p.1, p.2]) fun bits => bits.map ρ =
        (idx.mapIdx fun i n => (n, if k.testBit i then netConst1 else netConst0)).map fun p =>
          CellKind.xnor2.eval [ρ p.1, ρ p.2] := gives_mapM fun p _ => gives_cell rfl
  refine hbits.bind fun bits => ?_
  dsimp only
  rw [length_map]
  split
  · exact gives_pure fun _ => hgnd
  · refine (gives_reduce rfl bits netConst1).imp fun n hn hvalues => ?_
    rw [hn, hvdd, hvalues, Synthesizer.reduceAnd]
    congr 1
    refine ext_getElem? fun i => ?_
    simp only [getElem?_map, getElem?_mapIdx, Option.map_map]
    cases idx[i]? with
    | none => rfl
    | some n => by_cases hbit : k.testBit i <;> simp [hbit, hgnd, hvdd]

theorem gives_muxZip (sel : NetId) (a b : List NetId) : Gives ρ (muxZip sel a b) fun r =>
    r.map ρ = List.zipWith (fun x y => CellKind.mux2.eval [ρ sel, x, y]) (a.map ρ) (b.map ρ) := by
  have hcells : Gives ρ (muxZip sel a b) fun r =>
      r.map ρ = (a.zip b).map fun p => CellKind.mux2.eval [ρ sel, ρ p.1, ρ p.2] :=
    gives_mapM fun p _ => gives_cell rfl
  refine hcells.imp fun r hr => ?_
  rw [hr, zipWith_map, map_zip_eq_zipWith]
  rfl

theorem gives_muxPairs (sel : NetId) (zero : List NetId) : ∀ level : List (List NetId),
    Gives ρ (muxPairs sel zero level) fun r => r.map (List.map ρ) =
      Synthesizer.muxPairs (ρ sel) (zero.map ρ) (level.map (List.map ρ))
  | a :: b :: rest => by
    refine (gives_muxZip sel a b).bind fun merged =>
      (gives_muxPairs sel zero rest).bind fun next => gives_pure fun hnext hmerged => ?_
    rw [map_cons, hmerged, hnext]
    rfl
  | [a] => by
    refine (gives_muxZip sel a zero).bind fun merged => gives_pure fun hmerged => ?_
    rw [map_singleton, hmerged]
    rfl
  | [] => gives_pure rfl

theorem gives_muxTree (zero : List NetId) (sels : List NetId) : ∀ level : List (List NetId),
    Gives ρ (muxTree zero level sels) fun r =>
      r.map ρ = Synthesizer.muxTree (zero.map ρ) (level.map (List.map ρ)) (sels.map ρ) := by
  have hhead : ∀ level : List (List NetId),
      (level.headD []).map ρ = (level.map (List.map ρ)).headD [] := by
    intro level
    cases level <;> rfl
  induction sels with
  | nil => exact fun level => gives_pure (hhead level)
  | cons sel sels ih =>
    intro level
    rw [muxTree, map_cons, Synthesizer.muxTree, length_map]
    split
    · exact gives_pure (hhead level)
    · refine (gives_muxPairs sel zero level).bind fun next => (ih next).imp fun r hr hnext => ?_
      rw [hr, hnext]

theorem gives_dynamicMuxTree (elements : List (List NetId)) (selBits : List NetId) :
    Gives ρ (dynamicMuxTree elements selBits) fun r =>
      r.map ρ = Synthesizer.dynamicMuxTree (elements.map (List.map ρ)) (selBits.map ρ) := by
  refine gives_of_rails fun hgnd _ => (gives_muxTree _ _ _).imp fun r hr => ?_
  rw [hr, map_replicate, hgnd, Synthesizer.dynamicMuxTree]
  cases elements <;> simp

theorem gives_foldlM {σ τ α β : Type} {f : σ → α → Build σ} {g : τ → β → τ} {v : σ → τ}
    {u : α → β} {l : List α}
    (h : ∀ a ∈ l, ∀ s, Gives ρ (f s a) fun s' => v s' = g (v s) (u a)) (s : σ) :
    Gives ρ (l.foldlM f s) fun r => v r = (l.map u).foldl g (v s) := by
  induction l generalizing s with
  | nil => exact gives_pure rfl
  | cons a l ih =>
    rw [foldlM_cons]
    refine (h a mem_cons_self s).bind fun s' =>
      (ih (fun b hb => h b (mem_cons_of_mem _ hb)) s').imp fun r hr hs' => ?_
    rw [hr, hs', map_cons, foldl_cons]

theorem gives_combine (em bm : Option NetId) : Gives ρ (combine em bm) fun m =>
    m.map ρ = DynamicIndex.combine (em.map ρ) (bm.map ρ) := by
  cases em with
  | none => cases bm <;> exact gives_pure rfl
  | some em =>
    cases bm with
    | none => exact gives_pure rfl
    | some bm => exact gives_map ((gives_cell rfl).imp fun n hn => congrArg some hn)

theorem gives_writeTarget (newVal : NetId) (bit : ℕ) (bm : Option NetId) (current : List NetId)
    (element : ℕ × Option NetId) : Gives ρ (writeTarget newVal bit bm current element) fun r =>
      r.map ρ = DynamicIndex.writeTarget (ρ newVal) bit (bm.map ρ) (current.map ρ)
        (element.1, element.2.map ρ) := by
  unfold writeTarget DynamicIndex.writeTarget
  dsimp only
  rw [length_map]
  split
  · exact gives_pure rfl
  · rename_i hlt
    refine (gives_combine element.2 bm).bind fun m => ?_
    cases m with
    | none =>
      refine gives_pure fun hm => ?_
      rw [← hm, map_set]
      rfl
    | some m =>
      refine (gives_cell rfl).bind fun net => gives_pure fun hnet hm => ?_
      have hold := value_netOf ρ (Nat.lt_of_not_le hlt)
      rw [← hm, map_set, hnet]
      simp only [map_cons, map_nil, hold]
      rfl

/-- A match for every number. -/
theorem gives_matches {α β : Type} {f : ℕ → NetId → α} {v : α → β} {g : ℕ → Bool → β}
    (idx : List NetId) (ks : List ℕ) (h : ∀ k n, v (f k n) = g k (ρ n)) :
    Gives ρ (ks.mapM fun k => do
      let m ← eqConst idx k
      pure (f k m)) fun r =>
        r.map v = ks.map fun k => g k (Synthesizer.eqConst (idx.map ρ) k) :=
  gives_mapM fun k _ => (gives_eqConst idx k).bind fun m => gives_pure fun hm => by rw [h, hm]

/-- The nets of a run-time bit select. -/
def SelectNets (ρ : NetId → Bool) (dst : Dst) (bits : List NetId) : Prop :=
  ∀ idx, dst.select = .dynamicSingle idx → bits.map ρ =
    DynamicIndex.synthesizeExpr idx (indexBitsFor (dst.memberOffset + dst.memberWidth))

theorem gives_bitPositions (dst : Dst) (src bits : List NetId) :
    Gives ρ (bitPositions dst src bits) fun r => SelectNets ρ dst bits →
      r.map (fun p => (p.1, p.2.1.map ρ, ρ p.2.2)) = DynamicIndex.bitPositions dst (src.map ρ) := by
  refine gives_of_rails fun hgnd _ => ?_
  unfold bitPositions DynamicIndex.bitPositions
  cases hselect : dst.select with
  | whole =>
    refine gives_pure fun _ => ?_
    dsimp only
    rw [zip_map_right, map_map, map_map]
    rfl
  | static lo hi =>
    refine gives_pure fun _ => ?_
    dsimp only
    rw [zip_map_right, map_map, map_map]
    rfl
  | dynamicSingle idx =>
    have hhead : ρ (src.headD netConst0) = (src.map ρ).headD false := by
      cases src <;> simp [hgnd]
    have hplaces := gives_matches (f := fun b m => (b, some m, src.headD netConst0))
      (v := fun p => (p.1, p.2.1.map ρ, ρ p.2.2)) (g := fun b m => (b, some m, ρ (src.headD netConst0)))
      bits (List.range' dst.memberOffset dst.memberWidth) fun _ _ => rfl
    refine hplaces.imp fun r hr hbits => ?_
    rw [hr, hbits idx hselect, hhead]

theorem gives_writeElements (dst : Dst) (src bits : List NetId)
    (elements : List (ℕ × Option NetId)) (current : List NetId) :
    Gives ρ (writeElements dst src bits elements current) fun r => SelectNets ρ dst bits →
      r.map ρ = DynamicIndex.writeElements dst (src.map ρ)
        (elements.map fun e => (e.1, e.2.map ρ)) (current.map ρ) := by
  refine (gives_bitPositions dst src bits).bind fun positions => ?_
  have hfold : Gives ρ (positions.foldlM (fun current p =>
      elements.foldlM (writeTarget p.2.2 p.1 p.2.1) current) current) fun r => r.map ρ =
        (positions.map fun p => (p.1, p.2.1.map ρ, ρ p.2.2)).foldl (fun current p =>
          (elements.map fun e => (e.1, e.2.map ρ)).foldl
            (DynamicIndex.writeTarget p.2.2 p.1 p.2.1) current) (current.map ρ) :=
    gives_foldlM (g := fun current (p : ℕ × Option Bool × Bool) =>
        (elements.map fun e => (e.1, e.2.map ρ)).foldl (DynamicIndex.writeTarget p.2.2 p.1 p.2.1)
          current)
      (u := fun (p : ℕ × Option NetId × NetId) => (p.1, p.2.1.map ρ, ρ p.2.2)) (fun p _ current =>
        gives_foldlM (g := DynamicIndex.writeTarget (ρ p.2.2) p.1 (p.2.1.map ρ))
          (u := fun (e : ℕ × Option NetId) => (e.1, e.2.map ρ))
          (fun e _ current => gives_writeTarget p.2.2 p.1 p.2.1 current e) current) current
  refine hfold.imp fun r hr hpositions hbits => ?_
  rw [hr, hpositions hbits, DynamicIndex.writeElements]

variable (hsynth : ∀ e width, Gives ρ (synthesizeExpr e width) fun nets =>
  nets.map ρ = DynamicIndex.synthesizeExpr e width)

include hsynth

theorem gives_selectNets (dst : Dst) : Gives ρ (selectNets synthesizeExpr dst)
    (SelectNets ρ dst) := by
  unfold selectNets
  cases hselect : dst.select with
  | whole => exact gives_pure fun _ h => by simp [hselect] at h
  | static lo hi => exact gives_pure fun _ h => by simp [hselect] at h
  | dynamicSingle idx =>
    refine (hsynth idx _).imp fun bits hbits idx' h => ?_
    obtain rfl := DynamicIndex.DstSelect.dynamicSingle.inj (hselect.symm.trans h)
    exact hbits

/-- What a write builds evaluates to what its decoder writes. -/
theorem gives_writeToDst (dst : Dst) (src current : List NetId) :
    (writeToDst synthesizeExpr dst src current = none ∧
      DynamicIndex.writeToDst dst (src.map ρ) (current.map ρ) = none) ∨
    ∃ build out, writeToDst synthesizeExpr dst src current = some build ∧
      DynamicIndex.writeToDst dst (src.map ρ) (current.map ρ) = some out ∧
        Gives ρ build fun r => r.map ρ = out := by
  unfold writeToDst DynamicIndex.writeToDst
  cases dst.index with
  | static flat =>
    exact .inr ⟨_, _, rfl, rfl, (gives_selectNets hsynth dst).bind fun bits =>
      (gives_writeElements dst src bits _ current).imp fun r hr hbits => hr hbits⟩
  | dynamic indices =>
    dsimp only
    split
    · exact .inl ⟨rfl, rfl⟩
    cases indices with
    | nil => exact .inl ⟨rfl, rfl⟩
    | cons e rest =>
      refine .inr ⟨_, _, rfl, rfl, (gives_selectNets hsynth dst).bind fun bits =>
        (hsynth e _).bind fun idxNets => ?_⟩
      have helements := gives_matches (f := fun k m => (k * dst.scalarWidth, some m))
        (v := fun e => (e.1, e.2.map ρ)) (g := fun k m => (k * dst.scalarWidth, some m)) idxNets
        (List.range dst.shape.prod) fun _ _ => rfl
      refine helements.bind fun elements =>
        (gives_writeElements dst src bits elements current).imp
          fun r hr helements hidx hbits => ?_
      rw [hr hbits, helements, hidx]

omit hsynth

theorem gives_andThen {α β γ δ : Type} {x : Synth α} {f : α → Synth β} {v : α → γ} {u : β → δ}
    {o : Option γ} {g : γ → Option δ} (hx : Gives ρ x fun r => r.toOption.map v = o)
    (hf : ∀ a, Gives ρ (f a) fun r => r.toOption.map u = g (v a)) :
    Gives ρ (x.andThen f) fun r => r.toOption.map u = o.bind g := by
  intro ctx hctx
  unfold Synth.andThen at hctx ⊢
  cases hr : x ctx with
  | mk r ctx' =>
    rw [hr] at hctx
    cases r with
    | error e =>
      obtain ⟨hbegin, ho⟩ := hx ctx (by rw [hr]; exact hctx)
      rw [hr] at ho
      exact ⟨hbegin, by rw [← ho]; rfl⟩
    | ok a =>
      obtain ⟨hmid, hu⟩ := hf a ctx' hctx
      obtain ⟨hbegin, ho⟩ := hx ctx (by rw [hr]; exact hmid)
      rw [hr] at ho
      exact ⟨hbegin, by rw [← ho]; exact hu⟩

theorem gives_built {α γ : Type} {x : Build α} {v : α → γ} {c : γ} (hx : Gives ρ x fun a => v a = c) :
    Gives ρ (Synth.built x) fun r => r.toOption.map v = some c :=
  fun ctx hctx => ⟨(hx ctx hctx).1, congrArg some (hx ctx hctx).2⟩

theorem map_chunks {α β : Type} (f : α → β) (n : ℕ) (l : List α) :
    (chunks n l).map (List.map f) = chunks n (l.map f) := by
  simp [chunks, map_drop, map_take]

theorem map_buildConstant (hgnd : ρ netConst0 = false) (hvdd : ρ netConst1 = true)
    (value width : ℕ) : (buildConstant value width).map ρ =
      DynamicIndex.buildConstant value width := by
  rw [buildConstant, map_map]
  refine map_congr_left fun i _ => ?_
  show ρ (if decide (i < 64) && value.testBit i then netConst1 else netConst0) = _
  split
  · rename_i h
    rw [hvdd, h]
  · rename_i h
    rw [hgnd, Bool.eq_false_iff.2 h]

/-- A tree for every group of elements. -/
theorem gives_groups {f : List (List NetId) → Build (List NetId)}
    {g : List (List Bool) → List Bool}
    (h : ∀ group, Gives ρ (f group) fun r => r.map ρ = g (group.map (List.map ρ))) (size : ℕ)
    (elements : List (List NetId)) : Gives ρ ((chunks size elements).mapM f) fun r =>
      r.map (List.map ρ) = (chunks size (elements.map (List.map ρ))).map g := by
  refine (gives_mapM fun group _ => h group).imp fun r hr => ?_
  rw [hr, ← map_chunks, map_map]
  rfl

theorem gives_selectDim (selector : List NetId × ℕ) (elements : List (List NetId)) :
    Gives ρ (selectDim selector elements) fun r => r.toOption.map (List.map (List.map ρ)) =
      DynamicIndex.selectDim (selector.1.map ρ, selector.2) (elements.map (List.map ρ)) := by
  refine gives_of_rails fun hgnd hvdd => ?_
  unfold selectDim DynamicIndex.selectDim
  dsimp only
  rw [length_map]
  split
  · have hlen : (extend selector.1 (selector.1.length + 1) false).length =
        (buildConstant selector.2 (selector.1.length + 1)).length := by
      rw [length_extend, buildConstant, length_map, length_range]
    obtain ⟨build, hbuild, hvalid⟩ := exists_compare hlen (.inl rfl) false
      (ne_nil_of_length_eq_add_one (length_extend selector.1 (selector.1.length + 1) false))
    have hlimit := hvalid ρ
    rw [map_extend hgnd, map_buildConstant hgnd hvdd] at hlimit
    rw [hbuild, compareLess_spec (by rw [DynamicIndex.length_resize]; simp [DynamicIndex.buildConstant])]
    have hbool : Gives ρ build fun n => ρ n =
        decide (busValue (DynamicIndex.resize (selector.1.map ρ) (selector.1.length + 1) false) <
          busValue (DynamicIndex.buildConstant selector.2 (selector.1.length + 1))) := by
      refine hlimit.imp fun n hn => ?_
      rw [hn]
      simp [ordered, operand]
    refine gives_andThen (v := ρ) (gives_built hbool)
      (g := fun valid => some ((chunks selector.2 (elements.map (List.map ρ))).map fun group =>
        (Synthesizer.dynamicMuxTree group (selector.1.map ρ)).map fun n =>
          CellKind.and2.eval [n, valid])) fun valid => ?_
    refine gives_built (gives_groups (fun group => ?_) selector.2 elements)
    refine (gives_dynamicMuxTree group selector.1).bind fun selected => ?_
    refine (gives_mapM fun n _ => gives_cell rfl).imp fun r hr hselected => ?_
    rw [hr, ← hselected, map_map]
    rfl
  · exact gives_built (gives_groups (fun group => gives_dynamicMuxTree group selector.1)
      selector.2 elements)

theorem gives_selectDims (selectors : List (List NetId × ℕ)) (elements : List (List NetId)) :
    Gives ρ (selectDims selectors elements) fun r => r.toOption.map (List.map (List.map ρ)) =
      (selectors.map fun s => (s.1.map ρ, s.2)).foldrM DynamicIndex.selectDim
        (elements.map (List.map ρ)) := by
  induction selectors with
  | nil => exact fun ctx hctx => ⟨hctx, rfl⟩
  | cons selector rest ih =>
    rw [map_cons, foldrM_cons]
    exact gives_andThen ih fun inner => gives_selectDim selector inner

include hsynth in
/-- What a read builds evaluates to what its trees select. -/
theorem gives_readArray (scalarWidth : ℕ) (shape : List ℕ) (indices : List IndexExpr)
    (srcNets : List NetId) :
    Gives ρ (readArray synthesizeExpr scalarWidth shape indices srcNets) fun r =>
      r.toOption.map (List.map ρ) =
        DynamicIndex.readArray scalarWidth shape indices (srcNets.map ρ) := by
  have hselectors : Gives ρ ((indices.zip shape).mapM fun p => do
      let selector ← synthesizeExpr p.1 (max (indexBitsFor p.2) p.1.width)
      pure (selector, p.2)) fun r => r.map (fun s => (s.1.map ρ, s.2)) =
        (indices.zip shape).map fun p =>
          (DynamicIndex.synthesizeExpr p.1 (max (indexBitsFor p.2) p.1.width), p.2) := by
    refine gives_mapM fun p _ => (hsynth p.1 _).bind fun selector => gives_pure fun h => ?_
    rw [h]
  refine gives_andThen (gives_built hselectors) (g := fun selectors => (selectors.foldrM
    DynamicIndex.selectDim (chunks (scalarWidth * (shape.drop indices.length).prod)
      (srcNets.map ρ))).bind List.getLast?) fun selectors => ?_
  rw [← map_chunks]
  refine gives_andThen (gives_selectDims selectors _) fun elements => ?_
  rw [getLast?_map]
  cases elements.getLast? with
  | none => exact fun ctx hctx => ⟨hctx, rfl⟩
  | some nets => exact fun ctx hctx => ⟨hctx, rfl⟩

end Values

end Veryl.Synthesizer.Netlist
