import Veryl.Analyzer.Operators.ValueU64
import Veryl.Simulator.Statement

/-!
Lane merging. A concatenation of one-bit expressions of one shape, which read bits at the
position of their lane or the same bit in every lane, becomes one expression of the width of
the word.
-/

namespace Veryl.Simulator.LaneVector

open Veryl.Analyzer List Option Prod

variable {p : ProtoExpression × ℕ × ℕ} {n : ℕ}

variable {op : Op} {e m : ProtoExpression} {left : Bool}

def ctx (width : ℕ) : ExpressionContext := .ofWidth width

def maskOf (w : ℕ) : ℕ := ValueU64.genMask w

def clip (e : ProtoExpression) (w : ℕ) : ProtoExpression :=
  if 64 ≤ w then e
  else .binary e .bitAnd (.value (.new (2 ^ w - 1) w false) w (ctx w)) w (ctx w)

/-- A one-bit expression with the number of its lane. -/
abbrev Lane := ProtoExpression × ℕ

variable {columns : List (List Lane)} {l : Lane} {rest : List Lane}

abbrev Elements := List (ProtoExpression × ℕ × ℕ)

variable {es : Elements}

/-- The operands at one place below every lane. -/
def descend (kid : ProtoExpression → Option ProtoExpression) : List Lane → Option (List Lane)
  | [] => some []
  | (e, lane) :: rest => do
    let x ← kid e
    let kids ← descend kid rest
    some ((x, lane) :: kids)

/-- A read without a dynamic select: the variable, the select, the width and the full width. -/
def plainRead : ProtoExpression → Option (VarOffset × Option (ℕ × ℕ) × ℕ × ℕ)
  | .variable o sel none width full _ => some (o, sel, width, full)
  | _ => none

/-- The same plain one-bit read in every lane. -/
def laneInvariantRead : List Lane → Option ProtoExpression
  | [] => none
  | (head, _) :: rest => do
    let (o, sel, width, full) ← plainRead head
    if width ≠ 1 then none
    else if rest.all fun l => plainRead l.1 = some (o, sel, width, full) then some head
    else none

/-- A read of the bit at the position of the lane past a common base, in every lane. -/
def windowRead (lanes : List Lane) (w : ℕ) : Option ProtoExpression :=
  match lanes with
  | (.variable o (some (hi, lo)) none _ full _, lane) :: _ =>
    if hi ≠ lo ∨ hi < lane then none
    else
      let base := hi - lane
      if full < base + w then none
      else if lanes.all fun l =>
          match l.1 with
          | .variable o' (some (h, l')) none _ full' _ =>
            h = l' && h = l.2 + base && o' = o && full' = full
          | _ => false then
        some (.variable o (some (base + w - 1, base)) none w full (ctx w))
      else none
  | _ => none

/-- One constant bit in every lane. -/
def constantWord (lanes : List Lane) (w : ℕ) : Option ProtoExpression :=
  match lanes with
  | (.value v _ _, _) :: _ => do
    let bit ← v.toU64
    if 1 < bit then none
    else if lanes.all fun l =>
        match l.1 with
        | .value v _ _ => v.toU64 = some bit
        | _ => false then
      some (.value (.new (if bit = 1 then maskOf w else 0) w false) w (ctx w))
    else none
  | _ => none

/-- The operation on words that an operator on one bit becomes. -/
def bitwiseUnary : Op → Option Op
  | .bitNot | .logicNot => some .bitNot
  | _ => none

def bitwiseBinary : Op → Option Op
  | .bitOr => some .bitOr
  | .bitAnd => some .bitAnd
  | .bitXor => some .bitXor
  | .logicOr => some .bitOr
  | .logicAnd => some .bitAnd
  | _ => none

def unaryKid (op : Op) : ProtoExpression → Option ProtoExpression
  | .unary o x _ _ => if o = op ∧ x.width = 1 then some x else none
  | _ => none

def binaryKid (left : Bool) (op : Op) : ProtoExpression → Option ProtoExpression
  | .binary x o y _ _ =>
    if o = op ∧ x.width = 1 ∧ y.width = 1 then some (if left then x else y) else none
  | _ => none

/-- A constant with every bit of a width set. -/
def allOnes (width : ℕ) : ProtoExpression → Bool
  | .value v _ _ => width ≤ 64 && v.toU64 = some (maskOf width)
  | _ => false

/-- Strips the clips around an operand. -/
def peelClip : ProtoExpression → ProtoExpression
  | .binary x .bitAnd y width c =>
    if allOnes width y && x.width = width then peelClip x
    else if allOnes width x && y.width = width then peelClip y
    else .binary x .bitAnd y width c
  | e => e
termination_by structural e => e

/-- The row of one-bit elements and the mask of a reduction of their conjunction. -/
def maskedRow (cat mask : ProtoExpression) (n : ℕ) : Option (Elements × ProtoExpression) :=
  match cat with
  | .concatenation es width _ =>
    if width ≠ n ∨ es.length ≠ n ∨ (es.any fun p => p.2.1 ≠ 1 || p.2.2 ≠ 1) ∨ mask.width ≠ n then
      none
    else some (es, mask)
  | _ => none

def isConcatenation : ProtoExpression → Bool
  | .concatenation _ _ _ => true
  | _ => false

def split : ProtoExpression → Option (Elements × ProtoExpression)
  | .unary .bitOr x 1 _ =>
    match peelClip x with
    | .binary x .bitAnd y n _ =>
      let x := peelClip x
      let y := peelClip y
      if isConcatenation x then maskedRow x y n else maskedRow y x n
    | _ => none
  | _ => none

/-- The variable that masks the row of every lane: its offset, the position of its first bit
and its full width. -/
structure MaskRead where
  varOffset : VarOffset
  low : ℕ
  varFullWidth : ℕ

variable {mask : MaskRead}

/-- The rows of the lanes, which all have the mask of the first. -/
def rows (read : VarOffset × Option (ℕ × ℕ) × ℕ) (n : ℕ) : List Lane → Option (List (Elements × ℕ))
  | [] => some []
  | (e, lane) :: rest => do
    let (es, mask) ← split e
    let (o, sel, _, full) ← plainRead mask
    if es.length ≠ n ∨ (o, sel, full) ≠ read then none
    else
      let rest ← rows read n rest
      some ((es, lane) :: rest)

/-- Element `k` of every row, from the lowest. -/
def column (n : ℕ) (rows : List (Elements × ℕ)) (k : ℕ) : List Lane :=
  rows.filterMap fun r => r.1[n - 1 - k]?.map fun e => (e.1, r.2)

/-- The bits of the mask are those of the variable from its first. -/
def spansN (select : Option (ℕ × ℕ)) (n full : ℕ) : Bool :=
  match select with
  | some (hi, lo) => lo ≤ hi && hi - lo + 1 = n && hi < full
  | none => full = n

def maskedColumns (lanes : List Lane) : Option (MaskRead × List (List Lane)) :=
  match lanes with
  | [] => none
  | (head, _) :: _ => do
    let (es, mask) ← split head
    let n := es.length
    let (o, sel, _, full) ← plainRead mask
    if !spansN sel n full then none
    else
      let rows ← rows (o, sel, full) n lanes
      some (⟨o, (sel.map (·.2)).getD 0, full⟩, (List.range n).map (column n rows))

/-- A column where the mask has its bit. -/
def maskedTerm (mask : MaskRead) (w k : ℕ) (word : ProtoExpression) : ProtoExpression :=
  let bit := .variable mask.varOffset (some (mask.low + k, mask.low + k)) none 1
    mask.varFullWidth (ctx 1)
  .binary word .bitAnd (.concatenation [(bit, w, 1)] w (ctx w)) w (ctx w)

def maskedSum (mask : MaskRead) (w : ℕ) :
    ℕ → Option ProtoExpression → List ProtoExpression → Option ProtoExpression
  | _, acc, [] => acc
  | k, none, word :: words => maskedSum mask w (k + 1) (some (maskedTerm mask w k word)) words
  | k, some acc, word :: words =>
    maskedSum mask w (k + 1) (some (.binary acc .bitOr (maskedTerm mask w k word) w (ctx w))) words

mutual

def nodeCount : ProtoExpression → ℕ
  | .unary _ x _ _ => 1 + nodeCount x
  | .resize x _ _ _ => 1 + nodeCount x
  | .binary x _ y _ _ => 1 + (nodeCount x + nodeCount y)
  | .ternary a b d _ _ => 1 + (nodeCount a + nodeCount b + nodeCount d)
  | .concatenation es _ _ => 1 + elementCount es
  | _ => 1
termination_by structural e => e

def elementCount : Elements → ℕ
  | [] => 0
  | (e, _, _) :: es => nodeCount e + elementCount es
termination_by structural es => es

end

/-- The size of the first lane, by which merging descends. -/
def headCount : List Lane → ℕ
  | [] => 0
  | (e, _) :: _ => nodeCount e

theorem headCount_descend {kid : ProtoExpression → Option ProtoExpression}
    (hkid : ∀ e x, kid e = some x → nodeCount x < nodeCount e) {lanes kids : List Lane}
    (h : descend kid lanes = some kids) (hhead : lanes.head? = some l) :
    headCount kids < headCount lanes := by
  cases lanes with
  | nil => cases hhead
  | cons l rest =>
    obtain ⟨x, hx, h⟩ := bind_eq_some_iff.1 h
    obtain ⟨kids', -, h⟩ := bind_eq_some_iff.1 h
    obtain rfl := some.inj h
    exact hkid l.1 x hx

theorem unaryKid_spec {x : ProtoExpression} (h : unaryKid op e = some x) :
    ∃ w c, e = .unary op x w c ∧ x.width = 1 := by
  unfold unaryKid at h
  split at h
  · split at h
    · next hop =>
      obtain rfl := some.inj h
      exact ⟨_, _, by rw [hop.1], hop.2⟩
    · cases h
  · cases h

theorem binaryKid_spec {z : ProtoExpression} (h : binaryKid left op e = some z) :
    ∃ x y w c, e = .binary x op y w c ∧ x.width = 1 ∧ y.width = 1 ∧ z = if left then x else y := by
  unfold binaryKid at h
  split at h
  · split at h
    · next hop =>
      obtain rfl := some.inj h
      exact ⟨_, _, _, _, by rw [hop.1], hop.2.1, hop.2.2, rfl⟩
    · cases h
  · cases h

theorem nodeCount_unaryKid (e x : ProtoExpression) (h : unaryKid op e = some x) :
    nodeCount x < nodeCount e := by
  obtain ⟨w, c, rfl, -⟩ := unaryKid_spec h
  simp only [nodeCount]
  omega

theorem nodeCount_binaryKid (e z : ProtoExpression)
    (h : binaryKid left op e = some z) : nodeCount z < nodeCount e := by
  obtain ⟨x, y, w, c, rfl, -, -, rfl⟩ := binaryKid_spec h
  simp only [nodeCount]
  cases left <;> simp only [Bool.false_eq_true, if_false, if_true] <;> omega

theorem nodeCount_peelClip (e : ProtoExpression) : nodeCount (peelClip e) ≤ nodeCount e := by
  induction e with
  | binary x op y width c ihx ihy =>
    cases op
    case bitAnd =>
      simp only [peelClip]
      split_ifs
      · simp only [nodeCount]
        omega
      · simp only [nodeCount]
        omega
      · exact le_rfl
    all_goals exact le_rfl
  | _ => exact le_rfl

theorem nodeCount_le_elementCount (hp : p ∈ es) : nodeCount p.1 ≤ elementCount es := by
  induction es with
  | nil => cases hp
  | cons q es ih =>
    rcases mem_cons.1 hp with rfl | hp
    · exact Nat.le_add_right _ _
    · exact (ih hp).trans (Nat.le_add_left _ _)

theorem maskedRow_spec {cat mask : ProtoExpression} (h : maskedRow cat mask n = some (es, m)) :
    ∃ c, cat = .concatenation es n c ∧ es.length = n ∧ (∀ p ∈ es, p.2.1 = 1 ∧ p.2.2 = 1) ∧
      m = mask ∧ mask.width = n := by
  unfold maskedRow at h
  split at h
  · next es' width c =>
    split at h
    · cases h
    · next hok =>
      obtain ⟨rfl, rfl⟩ := mk.inj (some.inj h)
      simp only [not_or, Decidable.not_not, List.any_eq_true, Bool.or_eq_true, decide_eq_true_eq,
        not_exists, not_and] at hok
      obtain ⟨rfl, hlen, hones, hmask⟩ := hok
      exact ⟨c, rfl, hlen, fun p hp => hones p hp, rfl, hmask⟩
  · cases h

/-- The shape of a masked reduction, its clips aside. -/
theorem split_spec (h : split e = some (es, m)) : ∃ x c x' y c', e = .unary .bitOr x 1 c ∧
      peelClip x = .binary x' .bitAnd y es.length c' ∧ (∀ p ∈ es, p.2.1 = 1 ∧ p.2.2 = 1) ∧
      m.width = es.length ∧ ∃ k, (peelClip x' = .concatenation es es.length k ∧ peelClip y = m) ∨
        (peelClip y = .concatenation es es.length k ∧ peelClip x' = m) := by
  unfold split at h
  split at h
  · next x c =>
    split at h
    · next x' y n c' hpeel =>
      dsimp only at h
      split at h
      · obtain ⟨k, hcat, rfl, hones, rfl, hwidth⟩ := maskedRow_spec h
        exact ⟨x, c, x', y, c', rfl, hpeel, hones, hwidth, k, .inl ⟨hcat, rfl⟩⟩
      · obtain ⟨k, hcat, rfl, hones, rfl, hwidth⟩ := maskedRow_spec h
        exact ⟨x, c, x', y, c', rfl, hpeel, hones, hwidth, k, .inr ⟨hcat, rfl⟩⟩
    · cases h
  · cases h

theorem nodeCount_split (h : split e = some (es, m)) (hp : p ∈ es) :
    nodeCount p.1 < nodeCount e := by
  obtain ⟨x, c, x', y, c', rfl, hpeel, -, -, k, hsides⟩ := split_spec h
  have houter := nodeCount_peelClip x
  have hx := nodeCount_peelClip x'
  have hy := nodeCount_peelClip y
  have hmem := nodeCount_le_elementCount hp
  rw [hpeel] at houter
  simp only [nodeCount] at houter ⊢
  rcases hsides with ⟨hcat, -⟩ | ⟨hcat, -⟩
  · rw [hcat] at hx
    simp only [nodeCount] at hx
    omega
  · rw [hcat] at hy
    simp only [nodeCount] at hy
    omega

theorem rows_cons {read : VarOffset × Option (ℕ × ℕ) × ℕ}
    {rs : List (Elements × ℕ)} (h : rows read n (l :: rest) = some rs) :
    ∃ es mask width rest', split l.1 = some (es, mask) ∧
      plainRead mask = some (read.1, read.2.1, width, read.2.2) ∧ es.length = n ∧
      rows read n rest = some rest' ∧ rs = (es, l.2) :: rest' := by
  simp only [rows, bind_eq_bind, bind_eq_some_iff] at h
  obtain ⟨⟨es, mask⟩, hsplit, ⟨o, sel, width, full⟩, hread, h⟩ := h
  split at h
  · cases h
  · next hok =>
    simp only [not_or, Decidable.not_not] at hok
    obtain ⟨hlen, rfl⟩ := hok
    obtain ⟨rest', hrest, h⟩ := bind_eq_some_iff.1 h
    exact ⟨es, mask, width, rest', hsplit, hread, hlen, hrest, (some.inj h).symm⟩

theorem maskedColumns_spec (h : maskedColumns (l :: rest) = some (mask, columns)) :
    ∃ es m o sel width full rs, split l.1 = some (es, m) ∧
      plainRead m = some (o, sel, width, full) ∧ spansN sel es.length full = true ∧
      rows (o, sel, full) es.length (l :: rest) = some rs ∧
      mask = ⟨o, (sel.map (·.2)).getD 0, full⟩ ∧
      columns = (List.range es.length).map (column es.length rs) := by
  simp only [maskedColumns, bind_eq_bind, bind_eq_some_iff] at h
  obtain ⟨⟨es, m⟩, hsplit, ⟨o, sel, width, full⟩, hread, h⟩ := h
  split at h
  · cases h
  · next hspans =>
    obtain ⟨rs, hrows, h⟩ := bind_eq_some_iff.1 h
    obtain ⟨rfl, rfl⟩ := mk.inj (some.inj h)
    exact ⟨es, m, o, sel, width, full, rs, hsplit, hread, by simpa using hspans, hrows, rfl, rfl⟩

theorem headCount_maskedColumns {lanes : List Lane}
    (h : maskedColumns lanes = some (mask, columns)) {kids : List Lane} (hkids : kids ∈ columns) :
    headCount kids < headCount lanes := by
  cases lanes with
  | nil => cases h
  | cons l rest =>
    obtain ⟨es, m, o, sel, width, full, rs, hsplit, -, -, hrows, -, rfl⟩ := maskedColumns_spec h
    obtain ⟨k, hk, rfl⟩ := List.mem_map.1 hkids
    obtain ⟨es', m', -, rest', hsplit', -, -, -, rfl⟩ := rows_cons hrows
    obtain ⟨rfl, -⟩ := mk.inj (some.inj (hsplit.symm.trans hsplit'))
    have hlt : es.length - 1 - k < es.length := by
      have := mem_range.1 hk
      omega
    simp only [column, filterMap_cons, getElem?_eq_getElem hlt, map_some]
    exact nodeCount_split hsplit (getElem_mem hlt)

/-- The lanes as one expression of `w` bits, or none if they are not of one shape over one set
of variables. -/
def mergeLanes (lanes : List Lane) (w : ℕ) : Option ProtoExpression :=
  match laneInvariantRead lanes with
  | some v => some (.concatenation [(v, w, 1)] w (ctx w))
  | none =>
    match _ : maskedColumns lanes with
    | some (mask, columns) =>
      (columns.attach.mapM fun kids => mergeLanes kids.1 w).bind (maskedSum mask w 0 none)
    | none =>
      match _ : lanes.head? with
      | some (.variable _ _ _ _ _ _, _) => windowRead lanes w
      | some (.value _ _ _, _) => constantWord lanes w
      | some (.unary op _ _ _, _) =>
        match bitwiseUnary op, _ : descend (unaryKid op) lanes with
        | some bitwise, some xs =>
          (mergeLanes xs w).map fun x => .unary bitwise x w (ctx w)
        | _, _ => none
      | some (.binary _ op _ _ _, _) =>
        match bitwiseBinary op, _ : descend (binaryKid true op) lanes,
            _ : descend (binaryKid false op) lanes with
        | some bitwise, some xs, some ys =>
          (mergeLanes xs w).bind fun x =>
            (mergeLanes ys w).map fun y => .binary x bitwise y w (ctx w)
        | _, _, _ => none
      | _ => none
termination_by headCount lanes
decreasing_by
  · exact headCount_maskedColumns ‹_› kids.2
  · exact headCount_descend nodeCount_unaryKid ‹_› ‹_›
  · exact headCount_descend nodeCount_binaryKid ‹_› ‹_›
  · exact headCount_descend nodeCount_binaryKid ‹_› ‹_›

/-- The lanes of a concatenation, which is written high bit first. -/
def lanesOf : Elements → List Lane
  | [] => []
  | p :: es => (p.1, es.length) :: lanesOf es

/-- The number of operations that a merge has to remove is given. -/
def mergeConcatenation (minOps : ℕ) (elements : Elements) (w : ℕ) : Option ProtoExpression :=
  if w < 2 ∨ 64 < w ∨ elements.length ≠ w ∨ (elements.any fun p => p.2.1 ≠ 1 || p.2.2 ≠ 1) then none
  else
    let lanes := lanesOf elements
    if (w - 1) * headCount lanes < minOps then none
    else (mergeLanes lanes w).map fun e => clip e w

/-- The expression that a store gets. -/
def mergedExpr (minOps : ℕ) (a : ProtoAssignStatement) : Option ProtoExpression :=
  if a.dynamicSelect.isSome || a.rhsSelect.isSome then none
  else
    match a.expr with
    | .concatenation elements w _ =>
      match a.select with
      | some (hi, lo) =>
        if max hi lo - min hi lo + 1 ≠ w then none else mergeConcatenation minOps elements w
      | none => mergeConcatenation minOps elements w
    | _ => none

/-- The stores with their lanes merged, and how many were. -/
def laneMerge (minOps : ℕ) : List ProtoStatement → List ProtoStatement × ℕ
  | [] => ([], 0)
  | s :: stmts =>
    let rest := laneMerge minOps stmts
    match s with
    | .assign a =>
      match mergedExpr minOps a with
      | some e => (.assign { a with expr := e } :: rest.1, rest.2 + 1)
      | none => (s :: rest.1, rest.2)
    | _ => (s :: rest.1, rest.2)

end Veryl.Simulator.LaneVector
