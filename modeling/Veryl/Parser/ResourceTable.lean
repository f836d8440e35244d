import Mathlib

/-!
Interning of strings and paths: equal values have one id, and an id names one value.
-/

namespace Veryl.Parser

open Function

variable {id : ℕ}

/-- A bijection between values and ids; ids are given out in increasing order. -/
structure GlobalTable (T : Type) where
  byLeft : T → Option ℕ
  byRight : ℕ → Option T
  last : ℕ
  inverse : ∀ value id, byLeft value = some id ↔ byRight id = some value
  issued : ∀ id value, byRight id = some value → id < last

namespace GlobalTable

variable {T : Type}

def empty : GlobalTable T where
  byLeft := fun _ => none
  byRight := fun _ => none
  last := 0
  inverse := by simp
  issued := by simp

def getValue (table : GlobalTable T) (id : ℕ) : Option T := table.byRight id

variable {table : GlobalTable T}

theorem getValue_injective {id' : ℕ} {value : T}
    (h : table.getValue id = some value) (h' : table.getValue id' = some value) : id = id' := by
  have hid := (table.inverse value id).2 h
  rw [(table.inverse value id').2 h'] at hid
  exact (Option.some.inj hid).symm

variable [DecidableEq T]

/-- The table with a value that it does not hold yet. -/
def push (table : GlobalTable T) (value : T) (hnew : table.byLeft value = none) :
    GlobalTable T where
  byLeft := Function.update table.byLeft value (some table.last)
  byRight := Function.update table.byRight table.last (some value)
  last := table.last + 1
  inverse := fun value' id => by
    have hlast : table.byRight table.last ≠ some value' := fun h =>
      Nat.lt_irrefl _ (table.issued _ _ h)
    have hvalue : table.byRight id ≠ some value := fun h => by
      simp [(table.inverse value id).2 h] at hnew
    by_cases hv : value' = value
    · subst hv
      by_cases hid : id = table.last
      · simp [hid]
      · simp [update_of_ne hid, hvalue, Ne.symm hid]
    · by_cases hid : id = table.last
      · subst hid
        have hleft : table.byLeft value' ≠ some table.last := fun h =>
          hlast ((table.inverse _ _).1 h)
        simp [update_of_ne hv, hleft, Ne.symm hv]
      · simp [update_of_ne hv, update_of_ne hid, table.inverse]
  issued := fun id value' h => by
    by_cases hid : id = table.last
    · omega
    · rw [update_of_ne hid] at h
      exact Nat.lt_succ_of_lt (table.issued id value' h)

def insert (table : GlobalTable T) (value : T) : ℕ × GlobalTable T :=
  match h : table.byLeft value with
  | some id => (id, table)
  | none => (table.last, table.push value h)

theorem getValue_insert (table : GlobalTable T) (value : T) :
    (table.insert value).2.getValue (table.insert value).1 = some value := by
  rw [insert]
  split
  · rename_i id h
    exact (table.inverse value id).1 h
  · simp [getValue, push]

theorem getValue_insert_of_some (value : T) {value' : T} (h : table.getValue id = some value') :
    (table.insert value).2.getValue id = some value' := by
  rw [insert]
  split
  · exact h
  · have hid : id ≠ table.last := Nat.ne_of_lt (table.issued id value' h)
    simp only [getValue, push, update_of_ne hid]
    exact h

/-- The values in order, with the ids they get. -/
def insertAll (table : GlobalTable T) : List T → List ℕ × GlobalTable T
  | [] => ([], table)
  | value :: values =>
    let (id, table) := table.insert value
    let (ids, table) := insertAll table values
    (id :: ids, table)

theorem getValue_insertAll_of_some (values : List T)
    {value : T} (h : table.getValue id = some value) :
    (table.insertAll values).2.getValue id = some value := by
  induction values generalizing table with
  | nil => exact h
  | cons first values ih => exact ih (getValue_insert_of_some first h)

theorem insertAll_spec (table : GlobalTable T) (values : List T) :
    (table.insertAll values).1.map (table.insertAll values).2.getValue = values.map some := by
  induction values generalizing table with
  | nil => rfl
  | cons value values ih =>
    simp only [insertAll, List.map_cons, ih, List.cons.injEq, and_true]
    exact getValue_insertAll_of_some values (getValue_insert table value)

end GlobalTable

end Veryl.Parser
