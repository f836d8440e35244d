import Veryl.Synthesizer.ConvergeExact
import Veryl.Synthesizer.PostPassExact

/-!
Dead cell elimination: what is left is what the endpoints depend on, and no run tells the
difference.
-/

namespace Veryl.Synthesizer

open List

namespace GateModule

/-- Marks the cells behind the nets of a stack, whose top comes first. -/
def markAlive (m : GateModule) (alive : List Bool) (queue : List NetId) : List Bool :=
  match queue with
  | [] => alive
  | net :: queue =>
    match m.nets[net]? with
    | some (.cell idx) =>
      if alive[idx]? = some false then
        m.markAlive (alive.set idx true) ((m.cells[idx]?.elim [] Cell.inputs).reverse ++ queue)
      else m.markAlive alive queue
    | _ => m.markAlive alive queue
termination_by (alive.count false, queue.length)
decreasing_by
  · rename_i hdead
    obtain ⟨hlt, hget⟩ := List.getElem?_eq_some_iff.1 hdead
    have hpos : 0 < alive.count false := count_pos_iff.2 (mem_of_getElem? hdead)
    apply Prod.Lex.left
    simp only [count_set hlt, hget]
    simpa using hpos
  all_goals exact Prod.Lex.right _ (Nat.lt_succ_self _)

/-- The place of a cell among those that stay. -/
def keptIndex (marked : List (Cell × Bool)) (idx : ℕ) : Option ℕ :=
  marked[idx]?.bind fun p => if p.2 then some ((marked.take idx).filter Prod.snd).length else none

def retain (m : GateModule) (alive : List Bool) : GateModule :=
  { m with
    cells := ((m.cells.zip alive).filter Prod.snd).map Prod.fst
    nets := m.nets.map (redrive (keptIndex (m.cells.zip alive))) }

def deadCellElimination (m : GateModule) : GateModule :=
  let alive := m.markAlive (replicate m.cells.length false) m.endpointNets.reverse
  if alive.all id then m else m.retain alive

/-- The nets that the endpoints depend on. -/
inductive Needed (m : GateModule) : NetId → Prop where
  | endpoint {n : NetId} (h : n ∈ m.endpointNets) : Needed m n
  | input {n : NetId} {c : Cell} (h : Needed m c.output) (hc : c ∈ m.cells) (hn : n ∈ c.inputs) :
    Needed m n

/-- What the walk keeps: it marks needed cells only, and what the endpoints and the marked cells
read is marked or waits. -/
structure Marking (m : GateModule) (alive : List Bool) (queue : List NetId) : Prop where
  length : alive.length = m.cells.length
  sound : ∀ (i : ℕ) (c : Cell), m.cells[i]? = some c → alive[i]? = some true → m.Needed c.output
  needed : ∀ n ∈ queue, m.Needed n
  endpoint : ∀ n ∈ m.endpointNets, ∀ i, m.nets[n]? = some (.cell i) →
    n ∈ queue ∨ alive[i]? = some true
  input : ∀ (j : ℕ) (c : Cell), m.cells[j]? = some c → alive[j]? = some true → ∀ n ∈ c.inputs,
    ∀ i, m.nets[n]? = some (.cell i) → n ∈ queue ∨ alive[i]? = some true

variable {m : GateModule} {alive : List Bool} {queue : List NetId} {n net : NetId} {idx i j : ℕ}
  {c : Cell} {ρ ρ' v : NetId → Bool}

/-- A net that leads to no unmarked cell leaves the stack. -/
theorem Marking.skip (h : Marking m alive (net :: queue))
    (hnet : ∀ i, m.nets[net]? = some (.cell i) → alive[i]? = some true) :
    Marking m alive queue := by
  have hdrop : ∀ n i, m.nets[n]? = some (.cell i) → n ∈ net :: queue ∨ alive[i]? = some true →
      n ∈ queue ∨ alive[i]? = some true := by
    rintro n i hi (hn | halive)
    · rcases mem_cons.1 hn with rfl | hn
      · exact .inr (hnet i hi)
      · exact .inl hn
    · exact .inr halive
  exact ⟨h.length, h.sound, fun n hn => h.needed n (mem_cons_of_mem _ hn),
    fun n hn i hi => hdrop n i hi (h.endpoint n hn i hi),
    fun j c hc hj n hn i hi => hdrop n i hi (h.input j c hc hj n hn i hi)⟩

theorem Marking.mark (h : Marking m alive (net :: queue)) (hm : m.WellFormed)
    (hnet : m.nets[net]? = some (.cell idx)) (hc : m.cells[idx]? = some c) :
    Marking m (alive.set idx true) (c.inputs.reverse ++ queue) := by
  obtain ⟨d, hd, rfl⟩ := hm.cell_of net idx hnet
  obtain rfl := Option.some.inj (hc.symm.trans hd)
  have hlt : idx < alive.length := h.length ▸ (List.getElem?_eq_some_iff.1 hc).1
  have hset : ∀ i : ℕ, (alive.set idx true)[i]? = some true ↔ i = idx ∨ alive[i]? = some true := by
    intro i
    by_cases heq : idx = i
    · subst heq
      simp [hlt]
    · rw [getElem?_set_ne heq]
      exact (or_iff_right (Ne.symm heq)).symm
  have hkeep : ∀ n i, m.nets[n]? = some (.cell i) →
      n ∈ c.output :: queue ∨ alive[i]? = some true →
      n ∈ c.inputs.reverse ++ queue ∨ (alive.set idx true)[i]? = some true := by
    rintro n i hi (hn | halive)
    · rcases mem_cons.1 hn with rfl | hn
      · obtain rfl : idx = i := by simpa using hnet.symm.trans hi
        exact .inr ((hset idx).2 (.inl rfl))
      · exact .inl (mem_append_right _ hn)
    · exact .inr ((hset i).2 (.inr halive))
  have hneeded := h.needed c.output (mem_cons_self ..)
  refine ⟨(length_set ..).trans h.length, fun i e he hi => ?_, fun n hn => ?_,
    fun n hn i hi => hkeep n i hi (h.endpoint n hn i hi), fun j e he hj n hn i hi => ?_⟩
  · rcases (hset i).1 hi with rfl | hi
    · exact Option.some.inj (hc.symm.trans he) ▸ hneeded
    · exact h.sound i e he hi
  · rcases mem_append.1 hn with hn | hn
    · exact .input hneeded (mem_of_getElem? hc) (mem_reverse.1 hn)
    · exact h.needed n (mem_cons_of_mem _ hn)
  · rcases (hset j).1 hj with rfl | hj
    · obtain rfl := Option.some.inj (hc.symm.trans he)
      exact .inl (mem_append_left _ (mem_reverse.2 hn))
    · exact hkeep n i hi (h.input j e he hj n hn i hi)

/-- The walk ends with an empty stack. -/
theorem Marking.run (h : Marking m alive queue) (hm : m.WellFormed) :
    Marking m (m.markAlive alive queue) [] := by
  fun_induction markAlive m alive queue with
  | case1 => exact h
  | case2 alive net queue idx hnet hdead ih =>
    obtain ⟨c, hc, -⟩ := hm.cell_of net idx hnet
    rw [hc] at ih ⊢
    exact ih (h.mark hm hnet hc)
  | case3 alive net queue idx hnet hdead ih =>
    refine ih (h.skip fun i hi => ?_)
    obtain rfl : idx = i := by simpa using hnet.symm.trans hi
    obtain ⟨c, hc, -⟩ := hm.cell_of net idx hnet
    have hlt : idx < alive.length := h.length ▸ (List.getElem?_eq_some_iff.1 hc).1
    rw [getElem?_eq_getElem hlt] at hdead ⊢
    simpa using hdead
  | case4 alive net queue hno ih => exact ih (h.skip fun i hi => absurd hi (hno i))

/-- With an empty stack the marked cells are the needed ones. -/
theorem Marking.alive_iff (h : Marking m alive []) (hm : m.WellFormed) (hc : m.cells[i]? = some c) :
    alive[i]? = some true ↔ m.Needed c.output := by
  refine ⟨h.sound i c hc, fun hneeded => ?_⟩
  have hall : ∀ n, m.Needed n → ∀ i, m.nets[n]? = some (.cell i) → alive[i]? = some true := by
    intro n hn
    induction hn with
    | endpoint hn => exact fun i hi => (h.endpoint _ hn i hi).resolve_left not_mem_nil
    | input _ hd hn ih =>
      obtain ⟨j, hj⟩ := mem_iff_getElem?.1 hd
      exact fun i hi => (h.input j _ hj (ih j (hm.driver_eq j _ hj)) _ hn i hi).resolve_left
        not_mem_nil
  exact hall _ hneeded i (hm.driver_eq i c hc)

theorem marking_start (m : GateModule) :
    Marking m (replicate m.cells.length false) m.endpointNets.reverse := by
  have hnone : ∀ i : ℕ, (replicate m.cells.length false)[i]? ≠ some true := by
    intro i hi
    simp [getElem?_replicate] at hi
  exact ⟨length_replicate, fun i _ _ hi => absurd hi (hnone i),
    fun n hn => .endpoint (mem_reverse.1 hn), fun n hn _ _ => .inl (mem_reverse.2 hn),
    fun j _ _ hj => absurd hj (hnone j)⟩

theorem keptIndex_iff : keptIndex (m.cells.zip alive) i = some j ↔
    ∃ c, m.cells[i]? = some c ∧ alive[i]? = some true ∧
      (((m.cells.zip alive).take i).filter Prod.snd).length = j := by
  rw [keptIndex, keptIndex_spec]
  constructor
  · rintro ⟨⟨c, b⟩, hp, rfl, hj⟩
    obtain ⟨hc, hb⟩ := getElem?_zip_eq_some.1 hp
    exact ⟨c, hc, hb, hj⟩
  · rintro ⟨c, hc, hb, hj⟩
    exact ⟨(c, true), getElem?_zip_eq_some.2 ⟨hc, hb⟩, rfl, hj⟩

theorem cells_retain : (m.retain alive).cells[j]? = some c ↔
    ∃ i : ℕ, m.cells[i]? = some c ∧ keptIndex (m.cells.zip alive) i = some j := by
  rw [show (m.retain alive).cells = ((m.cells.zip alive).filter Prod.snd).map Prod.fst from rfl,
    getElem?_map, Option.map_eq_some_iff]
  constructor
  · rintro ⟨⟨d, b⟩, hp, rfl⟩
    obtain ⟨i, hi, rfl, hj⟩ := (filter_getElem? ..).1 hp
    obtain ⟨hd, hb⟩ := getElem?_zip_eq_some.1 hi
    exact ⟨i, hd, keptIndex_iff.2 ⟨d, hd, hb, hj⟩⟩
  · rintro ⟨i, hc, hindex⟩
    obtain ⟨d, hd, hb, hj⟩ := keptIndex_iff.1 hindex
    exact ⟨(c, true), (filter_getElem? ..).2 ⟨i, getElem?_zip_eq_some.2 ⟨hc, hb⟩, rfl, hj⟩, rfl⟩

/-- What the removal leaves of a module. -/
structure Pruned (m m' : GateModule) : Prop where
  sublist : m'.cells.Sublist m.cells
  mem_iff : ∀ c, c ∈ m'.cells ↔ c ∈ m.cells ∧ m.Needed c.output
  ports : m'.ports = m.ports
  ffs : m'.ffs = m.ffs
  ramBlocks : m'.ramBlocks = m.ramBlocks
  wellFormed : m'.WellFormed
  nets : ∃ index, m'.nets = m.nets.map (redrive index)

theorem pruned_deadCellElimination (hm : m.WellFormed) : Pruned m m.deadCellElimination := by
  have hdone := (marking_start m).run hm
  unfold deadCellElimination
  generalize m.markAlive _ _ = alive at hdone ⊢
  have hmem : ∀ c, c ∈ m.cells → (m.Needed c.output ↔ ∃ i : ℕ, m.cells[i]? = some c ∧
      alive[i]? = some true) := fun c hc => by
    obtain ⟨i, hi⟩ := mem_iff_getElem?.1 hc
    exact ⟨fun h => ⟨i, hi, (hdone.alive_iff hm hi).2 h⟩, fun ⟨j, hj, h⟩ =>
      (hdone.alive_iff hm hj).1 h⟩
  dsimp only
  split
  · rename_i hall
    refine ⟨Sublist.refl _, fun c => ⟨fun hc => ⟨hc, ?_⟩, And.left⟩, rfl, rfl, rfl, hm,
      some, ?_⟩
    · obtain ⟨i, hi⟩ := mem_iff_getElem?.1 hc
      have hlt : i < alive.length := hdone.length ▸ (List.getElem?_eq_some_iff.1 hi).1
      have htrue := all_eq_true.1 hall _ (getElem_mem hlt)
      exact (hmem c hc).2 ⟨i, hi, by rw [getElem?_eq_getElem hlt]; exact congrArg some htrue⟩
    · refine (map_id'' (fun d => ?_) _).symm
      cases d <;> rfl
  · refine ⟨?_, fun c => ⟨fun hc => ?_, fun ⟨hc, hneeded⟩ => ?_⟩, rfl, rfl, rfl,
      drives_redrive hm fun _ _ => cells_retain, _, rfl⟩
    · calc ((m.cells.zip alive).filter Prod.snd).map Prod.fst
          <+ (m.cells.zip alive).map Prod.fst := filter_sublist.map _
        _ = m.cells := map_fst_zip (Nat.le_of_eq hdone.length.symm)
    · obtain ⟨j, hj⟩ := mem_iff_getElem?.1 hc
      obtain ⟨i, hi, hindex⟩ := cells_retain.1 hj
      obtain ⟨d, hd, hb, -⟩ := keptIndex_iff.1 hindex
      exact ⟨mem_of_getElem? hi, (hdone.alive_iff hm hi).1 hb⟩
    · obtain ⟨i, hi, hb⟩ := (hmem c hc).1 hneeded
      exact mem_of_getElem? (cells_retain.2 ⟨i, hi, keptIndex_iff.2 ⟨c, hi, hb, rfl⟩⟩)

namespace Pruned

variable {m' : GateModule} (h : Pruned m m')

include h

theorem endpointNets_eq : m'.endpointNets = m.endpointNets :=
  endpointNets_congr h.ports h.ffs h.ramBlocks

theorem needed_iff : m'.Needed n ↔ m.Needed n := by
  constructor <;> intro hn
  · induction hn with
    | endpoint hn => exact .endpoint (h.endpointNets_eq ▸ hn)
    | input _ hc hn ih => exact .input ih (h.sublist.subset hc) hn
  · induction hn with
    | endpoint hn => exact .endpoint (h.endpointNets_eq ▸ hn)
    | input hneeded hc hn ih => exact .input ih ((h.mem_iff _).2 ⟨hc, hneeded⟩) hn

theorem value (hm : m.WellFormed) (hacyclic : m.Acyclic) (hρ : m.Solves v ρ)
    (hρ' : m'.Solves v ρ') (hn : m.Needed n) : ρ' n = ρ n := by
  obtain ⟨r, hr⟩ := hacyclic
  obtain ⟨index, hnets⟩ := h.nets
  obtain ⟨k, hk⟩ : ∃ k, k = r n := ⟨_, rfl⟩
  induction k using Nat.strongRecOn generalizing n with
  | ind k ih =>
    have hconst : constOf m'.nets n = constOf m.nets n := hnets ▸ constOf_redrive ..
    by_cases hdriven : ∃ i, m.nets[n]? = some (.cell i)
    · obtain ⟨i, hi⟩ := hdriven
      obtain ⟨c, hc, rfl⟩ := hm.cell_of n i hi
      have hmem := mem_of_getElem? hc
      rw [hρ.solves.cell_eq c hmem, hρ'.solves.cell_eq c ((h.mem_iff c).2 ⟨hmem, hn⟩)]
      refine congrArg c.kind.eval (map_congr_left fun n' hn' => ?_)
      exact ih (r n') (hk ▸ hr c hmem n' hn') (.input hn hmem hn') rfl
    cases hb : constOf m.nets n with
    | some b => rw [hρ.solves.const_eq n b hb, hρ'.solves.const_eq n b (hconst.trans hb)]
    | none =>
      rw [hρ.source_eq n ⟨fun i hi => hdriven ⟨i, hi⟩, hb⟩]
      refine hρ'.source_eq n ⟨fun j hj => ?_, hconst.trans hb⟩
      obtain ⟨i, hi, -⟩ := redrive_eq_cell.1 (hnets ▸ hj)
      exact hdriven ⟨i, hi⟩

theorem closed (hclosed : m.Closed) : m'.Closed := by
  obtain ⟨index, hnets⟩ := h.nets
  intro n hn
  rw [hnets, length_map]
  refine hclosed n (references_iff.2 ?_)
  have hread := references_iff.1 hn
  rw [GateModule.reads, h.endpointNets_eq] at hread
  exact ((h.sublist.flatMap Cell.inputs).append_right _).subset hread

theorem ffQ_iff : m'.nets[n]? = some (.ffQ i) ↔ m.nets[n]? = some (.ffQ i) := by
  obtain ⟨index, hnets⟩ := h.nets
  rw [hnets, redrive_eq (by simp) (by simp)]

theorem sound (hm : m.Sound) : m'.Sound := by
  obtain ⟨r, hr⟩ := hm.acyclic
  refine ⟨h.wellFormed, ⟨r, fun c hc => hr c (h.sublist.subset hc)⟩, fun n i hn => ?_,
    fun i ff hff => ?_⟩
  · rw [h.ffs]
    exact hm.drivesFfs.ff_of n i (h.ffQ_iff.1 hn)
  · exact h.ffQ_iff.2 (hm.drivesFfs.driver_eq i ff (h.ffs ▸ hff))

theorem shows (hm : m.Sound) (env : Environment) (init : State) (out : ℕ → List (List Bool)) :
    m'.Shows env init out ↔ m.Shows env init out := by
  obtain ⟨index, hnets⟩ := h.nets
  refine shows_iff hm (h.sound hm) h.ffs (fun _ _ => h.ffQ_iff) (fun v ρ ρ' hρ hρ' => ?_)
    (fun inputs ram s => ?_) env init out
  · exact observe_congr h.ports h.ffs h.ramBlocks fun n hn =>
      h.value hm.wellFormed hm.acyclic hρ hρ' (.endpoint hn)
  · exact ⟨m'.sourceValue inputs ram s, fun n hn => sourceValue_redrive hnets hn inputs ram s,
      fun _ _ => rfl⟩

end Pruned

/-- What is left is what the endpoints depend on, in the order it had; a second pass finds nothing
to remove, and every run shows at the ports what it showed. -/
theorem deadCellElimination_exact (m : GateModule) (hm : m.Sound) (hclosed : m.Closed) :
    m.deadCellElimination.Sound ∧ m.deadCellElimination.Closed ∧
      m.deadCellElimination.cells.Sublist m.cells ∧
      (∀ c, c ∈ m.deadCellElimination.cells ↔ c ∈ m.cells ∧ m.Needed c.output) ∧
      m.deadCellElimination.deadCellElimination = m.deadCellElimination ∧
      ∀ env init out, m.deadCellElimination.Shows env init out ↔ m.Shows env init out := by
  have h := pruned_deadCellElimination hm.wellFormed
  refine ⟨h.sound hm, h.closed hclosed, h.sublist, h.mem_iff, ?_, h.shows hm⟩
  generalize m.deadCellElimination = m' at h ⊢
  have hdone := (marking_start m').run h.wellFormed
  rw [deadCellElimination]
  refine if_pos (all_eq_true.2 fun b hb => ?_)
  obtain ⟨i, hi⟩ := mem_iff_getElem?.1 hb
  obtain ⟨c, hc⟩ : ∃ c, m'.cells[i]? = some c :=
    ⟨_, getElem?_eq_getElem (hdone.length ▸ (List.getElem?_eq_some_iff.1 hi).1)⟩
  have hneeded := h.needed_iff.2 ((h.mem_iff c).1 (mem_of_getElem? hc)).2
  exact Option.some.inj (hi.symm.trans ((hdone.alive_iff h.wellFormed hc).2 hneeded))

/-- With only the register on a port, the inverter behind it goes unseen. -/
def shownRegister : GateModule := { heldInverter with ports := [[4]] }

theorem deadCellElimination_exact_shownRegister : shownRegister.deadCellElimination.Closed ∧
    ∀ env init out, shownRegister.deadCellElimination.Shows env init out ↔
      shownRegister.Shows env init out := by
  have hs := sound_heldInverter
  have hreads : ∀ n ∈ shownRegister.reads, n < 6 := by decide
  have h := deadCellElimination_exact shownRegister
    ⟨hs.wellFormed, hs.acyclic, ⟨hs.drivesFfs.ff_of, hs.drivesFfs.driver_eq⟩⟩
    fun n hn => hreads n (references_iff.1 hn)
  exact ⟨h.2.1, h.2.2.2.2.2⟩

end GateModule

variable {m m' : GateModule}

/-- The turn that ends the loop drops no flip-flop, and the worklist pass leaves no buffer. -/
theorem ConvergeSimplify.settled (h : ConvergeSimplify m m') (hm : m.Sound) :
    m'.Sound ∧ (∀ c ∈ m'.cells, c.kind ≠ .buf) ∧ ∀ ff ∈ m'.ffs, ff.isDq = false := by
  induction h with
  | again h _ ih => exact ih (h.1.sound hm)
  | stop h hsame =>
    refine ⟨h.sound hm, ?_⟩
    obtain ⟨mid, hmid, rfl⟩ := h
    have hlength := (length_worklistSimplify hmid hm.wellFormed hm.acyclic).2
    have hnone : mid.ffs.any FfCell.isDq = false := by
      apply Bool.eq_false_iff.2
      intro hany
      obtain ⟨ff, hff, hdq⟩ := any_eq_true.1 hany
      have hdrop := hsame.2.trans hlength.symm
      rw [GateModule.eliminateDqFfs, if_pos hany] at hdrop
      have hkept := length_filter_eq_length_iff.1 ((length_map _).symm.trans hdrop) ff hff
      simp [isKept, hdq] at hkept
    rw [GateModule.eliminateDqFfs, if_neg (by rw [hnone]; exact Bool.false_ne_true)]
    obtain ⟨st, -, -, rfl⟩ := hmid
    exact ⟨fun c hc => isLive_iff.1 (mem_filter.1 hc).2,
      fun ff hff => by simpa using any_eq_false.1 hnone ff hff⟩

/-- The loop and then the removal: no buffer, no register that holds its reset value and no cell
without a use is left, and from a reset state the ports show what they showed. -/
theorem convergeSimplify_deadCells (m : GateModule) (hm : m.Sound) :
    (∃ mid, ConvergeSimplify m mid) ∧ ∀ mid, ConvergeSimplify m mid →
      (∀ c ∈ mid.deadCellElimination.cells, c.kind ≠ .buf ∧
        mid.deadCellElimination.Needed c.output) ∧
      (∀ ff ∈ mid.deadCellElimination.ffs, ff.isDq = false) ∧
      ∀ env init, m.Initial init → ∀ out,
        mid.deadCellElimination.Shows env init out ↔ m.Shows env init out := by
  refine ⟨exists_convergeSimplify hm, fun mid h => ?_⟩
  obtain ⟨hsound, hbuf, hdq⟩ := h.settled hm
  have hpruned := GateModule.pruned_deadCellElimination hsound.wellFormed
  refine ⟨fun c hc => ?_, hpruned.ffs ▸ hdq, fun env init hinit out =>
    (hpruned.shows hsound env init out).trans (h.shows hm hinit out)⟩
  exact ⟨hbuf c (hpruned.sublist.subset hc),
    hpruned.needed_iff.2 ((hpruned.mem_iff c).1 hc).2⟩

/-- Both passes over the inverter of a held register. -/
theorem convergeSimplify_deadCells_heldInverter : ∃ mid, ConvergeSimplify .heldInverter mid ∧
    ∀ env init, (init 4).q = true → ∀ out, mid.deadCellElimination.Shows env init out ↔
      GateModule.heldInverter.Shows env init out := by
  obtain ⟨⟨mid, hmid⟩, hspec⟩ :=
    convergeSimplify_deadCells .heldInverter GateModule.sound_heldInverter
  refine ⟨mid, hmid, fun env init hinit => (hspec mid hmid).2.2 env init fun ff hff _ => ?_⟩
  obtain rfl := mem_singleton.1 hff
  exact hinit

end Veryl.Synthesizer
