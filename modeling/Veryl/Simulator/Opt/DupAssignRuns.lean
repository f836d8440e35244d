import Veryl.Library.Related
import Veryl.Simulator.Footprint
import Veryl.Simulator.WriteLog
import Veryl.Simulator.Opt.DupAssignDce

/-!
Runs that differ in a slot that will be overwritten. The slot of a store and the slot its
log entry points to may hold anything between the store and the next one, and what is
neither reads them is the same in both runs.
-/

namespace Veryl.Simulator

open Veryl.Analyzer Veryl.Library List Option Nat

variable {v : Value}

variable {D : Set VarOffset} {m m' : Mem} {base : ℤ} {nb : ℕ} {a : VarOffset}
  {span : Option (ℕ × ℕ)}

theorem UnchangedOff.mono {D' : Set VarOffset} (h : UnchangedOff D m m')
    (hD : D ⊆ D') : UnchangedOff D' m m' :=
  fun b hb => h b fun hbD => hb (hD hbD)

theorem UnchangedOff.symm (h : UnchangedOff D m m') : UnchangedOff D m' m :=
  fun b hb => (h b hb).symm

theorem unchangedOff_empty : UnchangedOff ∅ m m' ↔ m' = m :=
  ⟨fun h => funext fun b => h b (Set.notMem_empty b), fun h b _ => by rw [h]⟩

namespace DupAssignDce

/-- What a run shows at once. -/
def isVisible : Output → Bool
  | .ffLog _ _ _ _ => false
  | _ => true

/-- The first byte and the count of the bytes of an element that an entry carries. -/
def loggedBytes (nb : ℕ) (span : Option (ℕ × ℕ)) : ℕ × ℕ :=
  if nb ≤ 8 then (0, nb)
  else if nb ≤ 16 then
    (span.bind fun s => logWindowForSpan (s.2 / 8) (s.1 / 8) nb).getD (0, nb)
  else
    (span.bind fun s =>
      if s.1 < s.2 ∨ nb ≤ s.1 / 8 then none else some (s.2 / 8, s.1 / 8 - s.2 / 8 + 1)).getD (0, nb)

/-- Delivers a log entry into the current slot of the flip-flop, the mask after the
payload. -/
def commitEntry (use4state : Bool) (base : ℤ) (v : Value) (nb : ℕ) (span : Option (ℕ × ℕ))
    (m : Mem) : Mem := fun a =>
  match a.indexIn (.ff base) (valueSize nb use4state) with
  | some i =>
    let bytes := loggedBytes nb span
    if bytes.1 ≤ i % nb ∧ i % nb < bytes.1 + bytes.2 then Value.storedByte v nb i else m a
  | none => m a

/-- Delivers the log of a run in its order. -/
def commit (use4state : Bool) : List Output → Mem → Mem
  | [], m => m
  | .ffLog base v nb span :: out, m => commit use4state out (commitEntry use4state base v nb span m)
  | _ :: out, m => commit use4state out m

/-- Where two runs may differ: bytes of storage and bytes of what is committed. -/
structure Region where
  mem : Set VarOffset
  log : Set VarOffset

def Region.none : Region := ⟨∅, ∅⟩

/-- Two runs showed the same, and what they logged brings storages that are alike outside
one set to storages that are alike outside another. -/
def LogsAlike (use4state : Bool) (L L' : Set VarOffset) (out out' : List Output) : Prop :=
  out.filter isVisible = out'.filter isVisible ∧
    ∀ μ ν, UnchangedOff L μ ν → UnchangedOff L' (commit use4state out μ) (commit use4state out' ν)

/-- Computations that from storages that are alike outside one region show the same and
leave storages, logs committed, that are alike outside another. -/
def Alike (use4state : Bool) (R R' : Region) {α : Type} (x y : Exec α) : Prop :=
  Computation.Relates (UnchangedOff R.mem) (UnchangedOff R'.mem)
    (LogsAlike use4state R.log R'.log) x y

section Log

variable {u : Bool} {L L' L'' : Set VarOffset}

theorem commit_append (out out' : List Output) (m : Mem) :
    commit u (out ++ out') m = commit u out' (commit u out m) := by
  induction out generalizing m with
  | nil => rfl
  | cons o out ih => cases o <;> exact ih _

theorem LogsAlike.append {o o' p p' : List Output} (h : LogsAlike u L L' o o')
    (h' : LogsAlike u L' L'' p p') : LogsAlike u L L'' (o ++ p) (o' ++ p') := by
  refine ⟨by rw [filter_append, filter_append, h.1, h'.1], fun μ ν hμ => ?_⟩
  rw [commit_append, commit_append]
  exact h'.2 _ _ (h.2 _ _ hμ)

theorem commitEntry_alike {μ ν : Mem} (h : UnchangedOff L μ ν) :
    UnchangedOff L (commitEntry u base v nb span μ) (commitEntry u base v nb span ν) := by
  intro a ha
  simp only [commitEntry, h a ha]

theorem LogsAlike.refl (L : Set VarOffset) (out : List Output) : LogsAlike u L L out out := by
  refine ⟨rfl, ?_⟩
  induction out with
  | nil => exact fun _ _ h => h
  | cons o out ih =>
    intro μ ν h
    cases o with
    | ffLog base v nb span => exact ih _ _ (commitEntry_alike h)
    | _ => exact ih _ _ h

/-- The bytes of an entry. -/
def logSlot (u : Bool) (base : ℤ) (nb : ℕ) : Set VarOffset :=
  (Access.mk (.ff base) 0 (valueSize nb u)).cells

theorem mem_logSlot :
    a ∈ logSlot u base nb ↔ ∃ i, a.indexIn (.ff base) (valueSize nb u) = some i := by
  simp [logSlot, Access.cells, VarOffset.indexIn_eq_some]

theorem commitEntry_of_not_mem (h : a ∉ logSlot u base nb) :
    commitEntry u base v nb span m a = m a := by
  rw [mem_logSlot] at h
  cases hi : a.indexIn (.ff base) (valueSize nb u) with
  | none => simp only [commitEntry, hi]
  | some i => exact absurd ⟨i, hi⟩ h

theorem commitEntry_full (h : a ∈ logSlot u base nb) :
    commitEntry u base v nb none m a = commitEntry u base v nb none m' a := by
  obtain ⟨i, hi⟩ := mem_logSlot.1 h
  have hnb : 0 < nb := by
    have := (VarOffset.indexIn_eq_some.1 hi).1
    rcases Nat.eq_zero_or_pos nb with rfl | hpos
    · cases u <;> simp [valueSize] at this
    · exact hpos
  have hlogged : loggedBytes nb none = (0, nb) := by simp [loggedBytes]
  simp only [commitEntry, hi, hlogged]
  rw [if_pos ⟨Nat.zero_le _, by simpa using mod_lt i hnb⟩,
    if_pos ⟨Nat.zero_le _, by simpa using mod_lt i hnb⟩]

end Log

section Alike

variable {u : Bool} {R R' R'' : Region} {α β γ : Type}

theorem Alike.bind {x y : Exec α} {f g : α → Exec β} (hx : Alike u R R' x y)
    (hf : ∀ a, Alike u R' R'' (f a) (g a)) : Alike u R R'' (x >>= f) (y >>= g) :=
  Computation.Relates.bind hx hf LogsAlike.append

theorem Alike.pure (a : α) : Alike u R R (Pure.pure a : Exec α) (Pure.pure a) :=
  Computation.Relates.pure (LogsAlike.refl _ _) a

theorem Alike.read_bind {f g : Mem → α} {k l : α → Exec β}
    (h : ∀ m m', UnchangedOff R.mem m m' → Alike u R R' (k (f m)) (l (g m'))) :
    Alike u R R' (Computation.read f >>= k) (Computation.read g >>= l) :=
  Computation.Relates.read_bind h

theorem Alike.refl (x : Exec α) : Alike u .none .none x x := by
  intro m m' hm
  obtain rfl := unchangedOff_empty.1 hm
  cases x m' with
  | none => exact .none
  | some a => exact .some ⟨rfl, LogsAlike.refl _ _, fun _ _ => rfl⟩

theorem Alike.trans {x y z : Exec α} (h : Alike u .none .none x y)
    (h' : Alike u .none .none y z) : Alike u .none .none x z := by
  intro m m' hm
  obtain rfl := unchangedOff_empty.1 hm
  have h₁ := h (fun _ _ => rfl : UnchangedOff ∅ m' m')
  have h₂ := h' (fun _ _ => rfl : UnchangedOff ∅ m' m')
  generalize x m' = xs at h₁ ⊢
  generalize y m' = ys at h₁ h₂
  generalize z m' = zs at h₂ ⊢
  cases h₁ with
  | none => cases h₂ with | none => exact .none
  | some h => cases h₂ with
    | some h' =>
      refine .some ⟨h.1.trans h'.1, ⟨h.2.1.1.trans h'.2.1.1, fun μ ν hμ => ?_⟩, h.2.2.trans h'.2.2⟩
      exact (h.2.1.2 μ μ fun _ _ => rfl).trans (h'.2.1.2 μ ν hμ)

theorem Alike.congruence :
    Computation.Congruence fun {_} (x y : Exec _) => Alike u .none .none x y where
  pure a := Alike.pure a
  bind hx hf := hx.bind hf
  diverge := fun _ => .none

end Alike

section Deposit

variable {env : Env} {R : Region} {o : VarOffset} {w : ℕ} {isPacked : Bool} {log : Option ℤ}
  {span : Option (ℕ × ℕ)}

/-- What a store changes of storage. -/
def slotOf (u : Bool) (o : VarOffset) (w : ℕ) (isPacked : Bool) : Set VarOffset :=
  if isPacked then ∅ else (storeSlot u o w).cells

/-- What the log entry of a store changes when it is delivered. -/
def entryOf (u : Bool) (w : ℕ) (log : Option ℤ) : Set VarOffset :=
  log.elim ∅ fun base => logSlot u base (nativeBytes w)

/-- The storage a store leaves. -/
def storeInto (env : Env) (o : VarOffset) (w : ℕ) (isPacked : Bool) (v : Value) (m : Mem) : Mem :=
  if isPacked then m else m.writeNativeValue o (nativeBytes w) env.use4state v

/-- The log entry of a store. -/
def entries (w : ℕ) (log : Option ℤ) (span : Option (ℕ × ℕ)) (v : Value) : List Output :=
  log.toList.map fun base => .ffLog base v (nativeBytes w) span

theorem deposit_some_apply (v : Value) (m : Mem) : deposit env o w isPacked log span (some v) m =
      some ⟨⟨⟩, storeInto env o w isPacked v m, entries w log span v⟩ := by
  rfl

theorem filter_entries (v : Value) : (entries w log span v).filter isVisible = [] := by
  cases log <;> simp [entries, isVisible]

theorem storeInto_alike (h : UnchangedOff D m m') :
    UnchangedOff D (storeInto env o w isPacked v m) (storeInto env o w isPacked v m') := by
  cases isPacked with
  | true => exact h
  | false =>
    intro b hb
    simp only [storeInto, Bool.false_eq_true, if_false]
    by_cases hslot : ∃ i < valueSize (nativeBytes w) env.use4state, b = o.add i
    · obtain ⟨i, hi, rfl⟩ := hslot
      rw [Mem.writeNativeValue_of_mem _ _ _ hi, Mem.writeNativeValue_of_mem _ _ _ hi]
    · have hnot : ∀ i < valueSize (nativeBytes w) env.use4state, b ≠ o.add i :=
        fun i hi he => hslot ⟨i, hi, he⟩
      rw [Mem.writeNativeValue_of_not_mem _ _ _ hnot, Mem.writeNativeValue_of_not_mem _ _ _ hnot]
      exact h b hb

theorem storeInto_inside (v : Value) (m : Mem) :
    UnchangedOff (slotOf env.use4state o w isPacked) m (storeInto env o w isPacked v m) := by
  cases isPacked with
  | true => exact fun _ _ => rfl
  | false => exact UnchangedOff.write m v (by simp [slotOf, storeSlot])

theorem commit_entries_inside (v : Value) (μ : Mem) : UnchangedOff (entryOf env.use4state w log) μ
      (commit env.use4state (entries w log span v) μ) := by
  cases log with
  | none => exact fun _ _ => rfl
  | some base => exact fun a ha => commitEntry_of_not_mem ha

/-- The same store in both runs. -/
theorem alike_deposit (v : Option Value) :
    Alike env.use4state R R (deposit env o w isPacked log span v)
      (deposit env o w isPacked log span v) := by
  intro m m' h
  cases v with
  | none => exact .some ⟨rfl, LogsAlike.refl _ _, h⟩
  | some v =>
    exact .some ⟨rfl, LogsAlike.refl _ _, storeInto_alike h⟩

theorem alike_deposit_inside (hmem : slotOf env.use4state o w isPacked ⊆ R.mem)
    (hlog : entryOf env.use4state w log ⊆ R.log) {v v' : Option Value} (hv : v.isSome = v'.isSome) :
    Alike env.use4state R R (deposit env o w isPacked log span v)
      (deposit env o w isPacked log span v') := by
  intro m m' h
  cases v with
  | none =>
    cases v' with
    | none => exact .some ⟨rfl, LogsAlike.refl _ _, h⟩
    | some v' => cases hv
  | some v =>
    cases v' with
    | none => cases hv
    | some v' =>
      rw [deposit_some_apply, deposit_some_apply]
      refine .some ⟨rfl, ⟨by rw [filter_entries, filter_entries], fun μ ν hμ => ?_⟩, ?_⟩
      · exact ((commit_entries_inside v μ).symm.mono hlog).trans
          (hμ.trans ((commit_entries_inside v' ν).mono hlog))
      · exact ((storeInto_inside v m).symm.mono hmem).trans
          (h.trans ((storeInto_inside v' m').mono hmem))

/-- A store that one run leaves out. -/
theorem alike_deposit_drop (v : Option Value) :
    Alike env.use4state .none ⟨slotOf env.use4state o w isPacked, entryOf env.use4state w log⟩
      (deposit env o w isPacked log span v) (pure ⟨⟩) := by
  intro m m' h
  obtain rfl := unchangedOff_empty.1 h
  cases v with
  | none =>
    refine .some ⟨rfl, ⟨rfl, fun μ ν hμ => ?_⟩, fun _ _ => rfl⟩
    obtain rfl := unchangedOff_empty.1 hμ
    exact fun _ _ => rfl
  | some v =>
    refine .some ⟨rfl, ⟨filter_entries v, fun μ ν hμ => ?_⟩, (storeInto_inside v m').symm⟩
    obtain rfl := unchangedOff_empty.1 hμ
    exact (commit_entries_inside v ν).symm

theorem alike_deposit_over (v : Value) :
    Alike env.use4state ⟨slotOf env.use4state o w isPacked, entryOf env.use4state w log⟩ .none
      (deposit env o w isPacked log none (some v))
      (deposit env o w isPacked log none (some v)) := by
  intro m m' h
  refine .some ⟨rfl, ⟨rfl, fun μ ν hμ => ?_⟩, fun b _ => ?_⟩
  · intro a _
    by_cases ha : a ∈ entryOf env.use4state w log
    · cases log with
      | none => exact absurd ha (Set.notMem_empty a)
      | some base => exact commitEntry_full ha
    · have hsame := (LogsAlike.refl (u := env.use4state) _ (entries w log none v)).2 μ ν hμ
      exact hsame a ha
  · by_cases hb : b ∈ slotOf env.use4state o w isPacked
    · cases isPacked with
      | true => exact absurd hb (Set.notMem_empty b)
      | false =>
        obtain ⟨i, hi, rfl⟩ := hb
        simp only [Bool.false_eq_true, if_false]
        simp only [storeSlot, Int.zero_add] at hi ⊢
        rw [Mem.writeNativeValue_of_mem _ _ _ hi, Mem.writeNativeValue_of_mem _ _ _ hi]
    · exact storeInto_alike h b hb

end Deposit

end DupAssignDce

end Veryl.Simulator
