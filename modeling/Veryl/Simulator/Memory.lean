import Veryl.Analyzer.Value

/-!
Storage of the simulator: two byte buffers, one for flip-flops and one for combinational variables,
addressed by typed offsets.
-/

namespace Veryl.Simulator

open Veryl.Analyzer Nat

variable {n i nb : ℕ} {use4state : Bool}

/-- An offset together with the buffer it points into. -/
inductive VarOffset where
  | ff (raw : ℤ)
  | comb (raw : ℤ)
  deriving DecidableEq, Repr

variable {a base : VarOffset}

namespace VarOffset

def isFf : VarOffset → Bool
  | .ff _ => true
  | .comb _ => false

def raw : VarOffset → ℤ
  | .ff o => o
  | .comb o => o

def new (isFf : Bool) (offset : ℤ) : VarOffset := if isFf then .ff offset else .comb offset

def adjust (o : VarOffset) (ffDelta combDelta : ℤ) : VarOffset :=
  match o with
  | .ff o => .ff (o + ffDelta)
  | .comb o => .comb (o + combDelta)

/-- The offset `d` bytes further in the same buffer. -/
def add (o : VarOffset) (d : ℤ) : VarOffset := o.adjust d d

@[simp] theorem add_ff (o d : ℤ) : (ff o).add d = ff (o + d) := rfl

@[simp] theorem add_comb (o d : ℤ) : (comb o).add d = comb (o + d) := rfl

@[simp] theorem isFf_add (o : VarOffset) (d : ℤ) : (o.add d).isFf = o.isFf := by
  cases o <;> rfl

@[simp] theorem raw_add (o : VarOffset) (d : ℤ) : (o.add d).raw = o.raw + d := by
  cases o <;> rfl

@[simp] theorem add_zero (o : VarOffset) : o.add 0 = o := by
  cases o <;> simp

@[simp] theorem add_add (o : VarOffset) (c d : ℤ) : (o.add c).add d = o.add (c + d) := by
  cases o <;> simp [Int.add_assoc]

@[simp] theorem new_isFf (b : Bool) (o : ℤ) : (new b o).isFf = b := by
  cases b <;> rfl

@[simp] theorem new_raw (b : Bool) (o : ℤ) : (new b o).raw = o := by
  cases b <;> rfl

theorem ext_iff_raw (a b : VarOffset) : a = b ↔ a.isFf = b.isFf ∧ a.raw = b.raw := by
  cases a <;> cases b <;> simp [isFf, raw]

theorem new_add (o : VarOffset) (d : ℤ) : new o.isFf (o.raw + d) = o.add d := by
  cases o <;> rfl

end VarOffset

abbrev Byte := BitVec 8

/-- The contents of both buffers. -/
abbrev Mem := VarOffset → Byte

/-- Storage bytes of a value of the given width. -/
def nativeBytes (width : ℕ) : ℕ :=
  if width ≤ 8 then 1
  else if width ≤ 16 then 2
  else if width ≤ 32 then 4
  else if width ≤ 64 then 8
  else if width ≤ 128 then 16
  else (width + 63) / 64 * 8

def valueSize (nativeBytes : ℕ) (use4state : Bool) : ℕ :=
  if use4state then nativeBytes * 2 else nativeBytes

/-- The bytes `[lo, hi)` of `n` elements of `nb` bytes at a stride of either sign. -/
def stridedSpan (base stride : ℤ) (n nb : ℕ) : ℤ × ℤ :=
  let reach := stride * ((n - 1 : ℕ) : ℤ)
  (base + min reach 0, base + max reach 0 + nb)

/-- Position of byte `a` inside the `n` bytes at `base`. -/
def VarOffset.indexIn (a base : VarOffset) (n : ℕ) : Option ℕ :=
  if a.isFf = base.isFf ∧ base.raw ≤ a.raw ∧ a.raw < base.raw + n then
    some (a.raw - base.raw).toNat
  else none

/-- Little-endian number held by the `n` bytes at `o`. -/
def Mem.readPayload (m : Mem) (o : VarOffset) : ℕ → ℕ
  | 0 => 0
  | n + 1 => (m o).toNat + 256 * readPayload m (o.add 1) n

/-- Stores the low `n` bytes of a payload at `o`. -/
def Mem.writePayload (m : Mem) (o : VarOffset) (n payload : ℕ) : Mem := fun a =>
  match a.indexIn o n with
  | some i => BitVec.ofNat 8 (payload >>> (8 * i))
  | none => m a

/-- Reads a value of `nb` storage bytes. -/
def Mem.readNativeValue (m : Mem) (o : VarOffset) (nb : ℕ) (use4state : Bool) (width : ℕ)
    (signed : Bool) : Value :=
  let cut (p : ℕ) : ℕ := if width ≤ 64 then p % 2 ^ 64 else p
  { payload := cut (m.readPayload o nb)
    maskXz := if use4state then cut (m.readPayload (o.add nb) nb) else 0
    width := width
    signed := signed }

/-- Stores a value into `nb` storage bytes. -/
def Mem.writeNativeValue (m : Mem) (o : VarOffset) (nb : ℕ) (use4state : Bool) (v : Value) : Mem :=
  let m := m.writePayload o nb v.payload
  if use4state then m.writePayload (o.add nb) nb v.maskXz else m

theorem VarOffset.indexIn_eq_some : a.indexIn base n = some i ↔ i < n ∧ a = base.add i := by
  unfold VarOffset.indexIn
  rw [VarOffset.ext_iff_raw]
  simp only [VarOffset.isFf_add, VarOffset.raw_add]
  split
  · rename_i h
    simp only [Option.some.injEq]
    constructor
    · rintro rfl
      exact ⟨by omega, h.1, by omega⟩
    · rintro ⟨_, _, h₂⟩
      omega
  · rename_i h
    simp only [reduceCtorEq, false_iff]
    rintro ⟨h₁, h₂, h₃⟩
    exact h ⟨h₂, by omega, by omega⟩

theorem VarOffset.indexIn_eq_none : a.indexIn base n = none ↔ ∀ i < n, a ≠ base.add i := by
  constructor
  · intro h i hi ha
    rw [VarOffset.indexIn_eq_some.2 ⟨hi, ha⟩] at h
    cases h
  · intro h
    cases hi : a.indexIn base n with
    | none => rfl
    | some i =>
      rw [VarOffset.indexIn_eq_some] at hi
      exact absurd hi.2 (h i hi.1)

theorem Mem.readPayload_congr {m m' : Mem} {o o' : VarOffset}
    (h : ∀ i < n, m' (o'.add i) = m (o.add i)) :
    m'.readPayload o' n = m.readPayload o n := by
  induction n generalizing o o' with
  | zero => rfl
  | succ n ih =>
    have h₀ : m' o' = m o := by simpa using h 0 (succ_pos n)
    rw [Mem.readPayload, Mem.readPayload, h₀, ih]
    intro i hi
    have := h (i + 1) (succ_lt_succ hi)
    simpa [Int.add_comm] using this

theorem valueSize_le_of_four (nb : ℕ) (use4state : Bool) : nb ≤ valueSize nb use4state := by
  cases use4state <;> simp [valueSize]; omega

theorem Mem.readNativeValue_congr {m m' : Mem} {o o' : VarOffset} (width : ℕ) (signed : Bool)
    (h : ∀ i < valueSize nb use4state, m' (o'.add i) = m (o.add i)) :
    m'.readNativeValue o' nb use4state width signed =
      m.readNativeValue o nb use4state width signed := by
  have hp : m'.readPayload o' nb = m.readPayload o nb :=
    readPayload_congr fun i hi => h i (hi.trans_le (valueSize_le_of_four nb use4state))
  cases use4state with
  | false => simp only [readNativeValue, hp, Bool.false_eq_true, if_false]
  | true =>
    have hm : m'.readPayload (o'.add nb) nb = m.readPayload (o.add nb) nb := by
      refine readPayload_congr fun i hi => ?_
      have := h (nb + i) (by simp [valueSize]; omega)
      simpa using this
    simp [readNativeValue, hp, hm]

theorem Mem.writePayload_of_mem (m : Mem) (o : VarOffset) (payload : ℕ) (hi : i < n) :
    m.writePayload o n payload (o.add i) = BitVec.ofNat 8 (payload >>> (8 * i)) := by
  have : (o.add i).indexIn o n = some i := VarOffset.indexIn_eq_some.2 ⟨hi, rfl⟩
  simp [writePayload, this]

theorem Mem.writePayload_of_not_mem (m : Mem) (o : VarOffset) (payload : ℕ)
    (h : ∀ i < n, a ≠ o.add i) : m.writePayload o n payload a = m a := by
  simp [writePayload, VarOffset.indexIn_eq_none.2 h]

/-- The byte a store leaves at position `i` of its slot. -/
def Value.storedByte (v : Value) (nb i : ℕ) : Byte :=
  if i < nb then BitVec.ofNat 8 (v.payload >>> (8 * i))
  else BitVec.ofNat 8 (v.maskXz >>> (8 * (i - nb)))

theorem Mem.writeNativeValue_of_mem (m : Mem) (o : VarOffset) {nb i : ℕ} {use4state : Bool}
    (v : Value) (hi : i < valueSize nb use4state) :
    m.writeNativeValue o nb use4state v (o.add i) = Value.storedByte v nb i := by
  have hcase : (i < nb) ∨ (use4state = true ∧ ¬ i < nb ∧ i - nb < nb) := by
    cases use4state <;> simp [valueSize] at hi ⊢ <;> omega
  rcases hcase with h | ⟨rfl, h, h'⟩
  · have hlow : ∀ k < nb, o.add i ≠ (o.add nb).add k := by
      intro k _ he
      have := congrArg VarOffset.raw he
      simp at this
      omega
    cases use4state with
    | false => simp [writeNativeValue, writePayload_of_mem _ _ _ h, Value.storedByte, h]
    | true =>
      simp only [writeNativeValue, if_true, Value.storedByte, h]
      rw [writePayload_of_not_mem _ _ _ hlow, writePayload_of_mem _ _ _ h]
  · have he : o.add i = (o.add nb).add ((i - nb : ℕ) : ℤ) := by
      rw [VarOffset.add_add]
      congr 1
      omega
    simp only [writeNativeValue, if_true, Value.storedByte, h, if_false]
    rw [he, writePayload_of_mem _ _ _ h']

theorem Mem.writeNativeValue_of_not_mem (m : Mem) (o : VarOffset)
    (v : Value) (h : ∀ i < valueSize nb use4state, a ≠ o.add i) :
    m.writeNativeValue o nb use4state v a = m a := by
  have hp : ∀ i < nb, a ≠ o.add i :=
    fun i hi => h i (hi.trans_le (valueSize_le_of_four nb use4state))
  cases use4state with
  | false => simp [writeNativeValue, writePayload_of_not_mem _ _ _ hp]
  | true =>
    have hm : ∀ i < nb, a ≠ (o.add nb).add i := by
      intro i hi he
      refine h (nb + i) (by simp [valueSize]; omega) ?_
      simpa using he
    simp [writeNativeValue, writePayload_of_not_mem _ _ _ hp, writePayload_of_not_mem _ _ _ hm]

end Veryl.Simulator
