import Veryl.Synthesizer.ArithBuild

/-!
The multiplier. Narrow products add one row of partial products after the other; from four bits on
the partial products are kept in columns, which full and half adders compress to two nets a column.
-/

namespace Veryl.Synthesizer.Netlist

open List

/-- The partial products of a bit of `b`, in their places. -/
def shiftAddRow (aExt bExt : List NetId) (width i : ℕ) : Build (List NetId) := do
  let products ← (List.range (width - i)).mapM fun j => cell .and2 [netOf bExt i, netOf aExt j]
  pure (replicate i netConst0 ++ products)

def shiftAddLoop (aExt bExt : List NetId) (width : ℕ) : List ℕ → List NetId → Synth (List NetId)
  | [], acc => Synth.done acc
  | i :: rows, acc => (Synth.built (shiftAddRow aExt bExt width i)).andThen fun row =>
    (Synth.tried (rippleAdd acc row netConst0)).andThen fun acc =>
      shiftAddLoop aExt bExt width rows acc

def shiftAddMultiply (aExt bExt : List NetId) (width : ℕ) : Synth (List NetId) :=
  shiftAddLoop aExt bExt width (List.range width) (replicate width netConst0)

def pushAt (buckets : List (List NetId)) (c : ℕ) (n : NetId) : List (List NetId) :=
  buckets.modify c (· ++ [n])

/-- A carry past the top column is dropped. -/
def pushCarry (width : ℕ) (buckets : List (List NetId)) (c : ℕ) (n : NetId) : List (List NetId) :=
  if c + 1 < width then pushAt buckets (c + 1) n else buckets

def productRow (aExt bExt : List NetId) (i : ℕ) :
    List ℕ → List (List NetId) → Build (List (List NetId))
  | [], buckets => pure buckets
  | j :: js, buckets => do
    let pp ← cell .and2 [netOf bExt i, netOf aExt j]
    productRow aExt bExt i js (pushAt buckets (i + j) pp)

def productRows (aExt bExt : List NetId) (width : ℕ) :
    List ℕ → List (List NetId) → Build (List (List NetId))
  | [], buckets => pure buckets
  | i :: rows, buckets => do
    let buckets ← productRow aExt bExt i (List.range (width - i)) buckets
    productRows aExt bExt width rows buckets

/-- Full adders on three nets at a time, a half adder on a pair that is left. -/
def compressColumn (width c : ℕ) : List NetId → List (List NetId) → Build (List (List NetId))
  | x :: y :: z :: col, next => do
    let (s, cy) ← fullAdder x y z
    compressColumn width c col (pushCarry width (pushAt next c s) c cy)
  | [x, y], next => do
    let s ← cell .xor2 [x, y]
    let cy ← cell .and2 [x, y]
    pure (pushCarry width (pushAt next c s) c cy)
  | [x], next => pure (pushAt next c x)
  | [], next => pure next

def compressColumns (width : ℕ) :
    ℕ → List (List NetId) → List (List NetId) → Build (List (List NetId))
  | _, [], next => pure next
  | c, col :: cols, next => do
    let next ← compressColumn width c col next
    compressColumns width (c + 1) cols next

/-- One round of the compression. -/
def compressRound (width : ℕ) (buckets : List (List NetId)) : Build (List (List NetId)) :=
  compressColumns width 0 buckets (replicate width [])

def maxHeight (buckets : List (List NetId)) : ℕ := (buckets.map List.length).foldr max 0

def heightAt (buckets : List (List NetId)) (d : ℕ) : ℕ := (buckets.getD d []).length

variable {ρ : NetId → Bool} {width c d : ℕ} {buckets next : List (List NetId)}

theorem heightAt_pushAt (buckets : List (List NetId)) (c d : ℕ) (n : NetId) :
    heightAt (pushAt buckets c n) d ≤ heightAt buckets d + if d = c then 1 else 0 := by
  unfold heightAt pushAt
  rw [getD_eq_getElem?_getD, getD_eq_getElem?_getD, getElem?_modify]
  by_cases h : d = c
  · subst h
    cases buckets[d]? with
    | none => exact Nat.zero_le _
    | some col => simp
  · have hne : ¬ c = d := fun heq => h heq.symm
    cases buckets[d]? with
    | none => exact Nat.zero_le _
    | some col => simp [hne]

theorem heightAt_pushCarry (buckets : List (List NetId)) (c d : ℕ) (n : NetId) :
    heightAt (pushCarry width buckets c n) d ≤ heightAt buckets d + if d = c + 1 then 1 else 0 := by
  unfold pushCarry
  split
  · exact heightAt_pushAt buckets (c + 1) d n
  · exact Nat.le_add_right _ _

/-- What an adder leaves of a column. -/
theorem heightAt_pushes (width : ℕ) (next : List (List NetId)) (c d : ℕ) (s cy : NetId) :
    heightAt (pushCarry width (pushAt next c s) c cy) d ≤
      heightAt next d + (if d = c then 1 else 0) + if d = c + 1 then 1 else 0 :=
  (heightAt_pushCarry _ c d cy).trans (Nat.add_le_add_right (heightAt_pushAt next c d s) _)

theorem heightAt_compressColumn (width c d : ℕ) : ∀ (col : List NetId) (next : List (List NetId))
    (ctx : ConvContext), heightAt (compressColumn width c col next ctx).1 d ≤
      heightAt next d + (if d = c then (col.length + 2) / 3 else 0) +
        if d = c + 1 then (col.length + 1) / 3 else 0
  | x :: y :: z :: col, next, ctx => by
    have hrest := heightAt_compressColumn width c d col
      (pushCarry width (pushAt next c (fullAdder x y z ctx).1.1) c (fullAdder x y z ctx).1.2)
      (fullAdder x y z ctx).2
    have hpushed := heightAt_pushes width next c d (fullAdder x y z ctx).1.1
      (fullAdder x y z ctx).1.2
    have hcol : (x :: y :: z :: col).length = col.length + 3 := rfl
    have hstays : (if d = c then (col.length + 3 + 2) / 3 else 0) =
        (if d = c then (col.length + 2) / 3 else 0) + if d = c then 1 else 0 := by
      split <;> omega
    have hcarried : (if d = c + 1 then (col.length + 3 + 1) / 3 else 0) =
        (if d = c + 1 then (col.length + 1) / 3 else 0) + if d = c + 1 then 1 else 0 := by
      split <;> omega
    refine hrest.trans ?_
    rw [hcol, hstays, hcarried]
    omega
  | [x, y], next, ctx => by
    have hpushed := heightAt_pushes width next c d (cell .xor2 [x, y] ctx).1
      (cell .and2 [x, y] (cell .xor2 [x, y] ctx).2).1
    have hstays : ([x, y].length + 2) / 3 = 1 := by simp
    have hcarried : ([x, y].length + 1) / 3 = 1 := by simp
    rw [hstays, hcarried]
    exact hpushed
  | [x], next, ctx => by
    have hstays : ([x].length + 2) / 3 = 1 := by simp
    rw [hstays]
    exact (heightAt_pushAt next c d x).trans (Nat.le_add_right _ _)
  | [], next, ctx => by
    rw [Nat.add_assoc]
    exact Nat.le_add_right _ _

theorem heightAt_compressColumns (width H : ℕ) (d : ℕ) (cols : List (List NetId)) :
    ∀ (c : ℕ) (next : List (List NetId)) (ctx : ConvContext), (∀ col ∈ cols, col.length ≤ H) →
      (∀ d, heightAt next d ≤ if d < c then (H + 2) / 3 + (H + 1) / 3
        else if d = c then (H + 1) / 3 else 0) →
      heightAt (compressColumns width c cols next ctx).1 d ≤ (H + 2) / 3 + (H + 1) / 3 := by
  induction cols with
  | nil =>
    intro c next ctx _ hnext
    refine (hnext d).trans ?_
    split
    · exact Nat.le_refl _
    · split <;> omega
  | cons col cols ih =>
    intro c next ctx hcols hnext
    have hcol := hcols col mem_cons_self
    refine ih (c + 1) _ _ (fun col' h => hcols col' (mem_cons_of_mem _ h)) fun d => ?_
    have hstep := heightAt_compressColumn width c d col next ctx
    have hbefore := hnext d
    refine hstep.trans ?_
    rcases Nat.lt_trichotomy d c with h | h | h
    · rw [if_pos h] at hbefore
      rw [if_pos (by omega : d < c + 1), if_neg (by omega : ¬ d = c),
        if_neg (by omega : ¬ d = c + 1)]
      omega
    · rw [if_neg (by omega : ¬ d < c), if_pos h] at hbefore
      rw [if_pos (by omega : d < c + 1), if_pos h, if_neg (by omega : ¬ d = c + 1)]
      omega
    · rw [if_neg (by omega : ¬ d < c), if_neg (by omega : ¬ d = c)] at hbefore
      rw [if_neg (by omega : ¬ d < c + 1), if_neg (by omega : ¬ d = c)]
      split <;> omega

theorem le_maxHeight {col : List NetId} (h : col ∈ buckets) : col.length ≤ maxHeight buckets := by
  induction buckets with
  | nil => cases h
  | cons col' cols ih =>
    rcases mem_cons.1 h with rfl | h
    · exact le_max_left _ _
    · exact (ih h).trans (le_max_right _ _)

theorem maxHeight_le {H : ℕ} (h : ∀ d, heightAt buckets d ≤ H) : maxHeight buckets ≤ H := by
  induction buckets with
  | nil => exact Nat.zero_le _
  | cons col cols ih => exact max_le (h 0) (ih fun d => h (d + 1))

theorem maxHeight_compressRound (width : ℕ) (buckets : List (List NetId)) (ctx : ConvContext) :
    maxHeight (compressRound width buckets ctx).1 ≤
      (maxHeight buckets + 2) / 3 + (maxHeight buckets + 1) / 3 := by
  refine maxHeight_le fun d => heightAt_compressColumns width (maxHeight buckets) d buckets 0 _ ctx
    (fun col h => le_maxHeight h) fun d => ?_
  have hempty : heightAt (replicate width []) d = 0 := by
    unfold heightAt
    rw [getD_eq_getElem?_getD, getElem?_replicate]
    split <;> rfl
  rw [hempty]
  exact Nat.zero_le _

theorem maxHeight_compressRound_lt (width : ℕ) {buckets : List (List NetId)}
    (h : ¬ maxHeight buckets ≤ 2) (ctx : ConvContext) :
    maxHeight (compressRound width buckets ctx).1 < maxHeight buckets := by
  have := maxHeight_compressRound width buckets ctx
  omega

/-- The loop of the compression. -/
def compressLoop (width : ℕ) (buckets : List (List NetId)) (ctx : ConvContext) :
    List (List NetId) × ConvContext :=
  if maxHeight buckets ≤ 2 then (buckets, ctx)
  else
    let round := compressRound width buckets ctx
    compressLoop width round.1 round.2
termination_by maxHeight buckets
decreasing_by exact maxHeight_compressRound_lt width ‹_› ctx

def wallaceMultiply (aExt bExt : List NetId) (width : ℕ) : Synth (List NetId) :=
  (Synth.built (productRows aExt bExt width (List.range width)
    (replicate width []))).andThen fun buckets =>
  (Synth.built (compressLoop width buckets)).andThen fun buckets =>
    let row0 := buckets.map fun col => netOf col 0
    let row1 := buckets.map fun col => netOf col 1
    Synth.tried (rippleAdd row0 row1 netConst0)

def multiply (a b : List NetId) (resultWidth : ℕ) (signed : Bool) : Synth (List NetId) :=
  if resultWidth = 0 then Synth.done []
  else
    let aExt := extend a resultWidth signed
    let bExt := extend b resultWidth signed
    if 4 ≤ resultWidth then wallaceMultiply aExt bExt resultWidth
    else shiftAddMultiply aExt bExt resultWidth

end Veryl.Synthesizer.Netlist
