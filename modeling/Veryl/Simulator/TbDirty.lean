import Veryl.Simulator.Footprint
import Veryl.Library.Folds

/-!
Which testbench statements can invalidate the settled combinational state.
-/

namespace Veryl.Simulator.TbDirty

open Veryl.Library List
/-- The greatest machine address. -/
def usizeMax : ℕ := 2 ^ 64 - 1

/-- A half-open range of bytes in one buffer. -/
structure Span where
  start : ℕ
  end_ : ℕ
  touched : Bool
  deriving DecidableEq, Repr

variable {spans : List Span} {s : Span}

def Span.Has (s : Span) (b : ℕ) : Prop := s.start ≤ b ∧ b < s.end_

instance (s : Span) (b : ℕ) : Decidable (s.Has b) := inferInstanceAs (Decidable (_ ∧ _))

/-- A variable: the slots of its elements, the current values first and then the next. -/
structure TrackedVariable where
  nativeBytes : ℕ
  values : List VarOffset
  pos : 0 < nativeBytes

/-- What the table is built from. A buffer is an allocation, which ends below the greatest
address. -/
structure Layout where
  vars : List TrackedVariable
  /-- The offsets the combinational statements touch. -/
  touched : List VarOffset
  use4state : Bool
  ffLen : ℕ
  combLen : ℕ
  ffLen_lt : ffLen < usizeMax
  combLen_lt : combLen < usizeMax

section Build

/-- Lays an element of a variable after the run of its last ones, or begins a run. -/
def runStep (len : ℕ) (runs : List Span) (start : ℕ) : List Span :=
  match runs with
  | run :: rest =>
    if run.end_ = start then { run with end_ := start + len } :: rest
    else ⟨start, start + len, false⟩ :: run :: rest
  | [] => [⟨start, start + len, false⟩]

def runsOf (len : ℕ) (starts : List ℕ) : List Span := (starts.foldl (runStep len) []).reverse

/-- The extent of a variable in a buffer, empty when it has no element there. -/
def extent (len : ℕ) (starts : List ℕ) : ℕ × ℕ :=
  starts.foldl (fun e start => (min e.1 start, max e.2 (start + len))) (usizeMax, 0)

/-- Whether a sorted set has a member in a range. -/
def anyIn (set : List ℕ) (lo hi : ℕ) : Bool :=
  decide (lo < hi) && ((set.dropWhile (· < lo)).head?.any (· < hi))

/-- Merges the next span in order into the cover, the last span of which comes first. -/
def coverStep (out : List Span) (s : Span) : List Span :=
  match out with
  | prev :: rest =>
    if s.start < prev.end_ then
      { prev with end_ := max prev.end_ s.end_, touched := prev.touched || s.touched } :: rest
    else if s.start = prev.end_ ∧ prev.touched = s.touched then
      { prev with end_ := s.end_ } :: rest
    else s :: prev :: rest
  | [] => [s]

def spanLe (a b : Span) : Prop := a.start < b.start ∨ a.start = b.start ∧ a.end_ ≤ b.end_

instance : DecidableRel spanLe := fun _ _ => inferInstanceAs (Decidable (_ ∨ _))

def disjointCover (spans : List Span) : List Span :=
  ((spans.insertionSort spanLe).foldl coverStep []).reverse

namespace Layout

variable (L : Layout)

def len (isFf : Bool) : ℕ := if isFf then L.ffLen else L.combLen

/-- Bytes of an element. -/
def stride (v : TrackedVariable) : ℕ := valueSize v.nativeBytes L.use4state

/-- The position of an offset that points into the buffer. -/
def position (isFf : Bool) (o : VarOffset) : Option ℕ :=
  if o.isFf = isFf ∧ 0 ≤ o.raw ∧ o.raw < L.len isFf then some o.raw.toNat else none

def starts (v : TrackedVariable) (isFf : Bool) : List ℕ := v.values.filterMap (L.position isFf)

def touchedIn (isFf : Bool) : List ℕ :=
  (L.touched.filterMap fun o => if o.isFf = isFf ∧ 0 ≤ o.raw then some o.raw.toNat else none)
    |>.insertionSort (· ≤ ·)

/-- The verdict of a variable. -/
def isTouched (v : TrackedVariable) : Bool :=
  let reach (isFf : Bool) : Bool :=
    let e := extent (L.stride v) (L.starts v isFf)
    anyIn (L.touchedIn isFf) e.1 e.2
  reach true || reach false

/-- The spans of a variable in a buffer. -/
def spansOf (isFf : Bool) (v : TrackedVariable) : List Span :=
  (runsOf (L.stride v) (L.starts v isFf)).map fun run => { run with touched := L.isTouched v }

/-- The table of a buffer. -/
def cover (isFf : Bool) : List Span := disjointCover (L.vars.flatMap (L.spansOf isFf))

end Layout
end Build

section Query

/-- The end of a write, which has at least one byte. -/
def writeEnd (off len : ℕ) : ℕ := min (off + max len 1) usizeMax

def coveredTo (stop covered : ℕ) : List Span → Bool
  | [] => decide (covered < stop)
  | s :: rest =>
    if s.start < stop then
      -- a gap holds bytes of no known variable
      if covered < s.start then true
      else if s.touched then true
      else coveredTo stop (max covered s.end_) rest
    else decide (covered < stop)

/-- Whether a write may reach a byte that is touched, or one of no known variable. -/
def rangeMayReach (spans : List Span) (off len : ℕ) : Bool :=
  coveredTo (writeEnd off len) off (spans.dropWhile fun s => s.end_ ≤ off)

namespace Layout

variable (L : Layout)

def writeMayReachComb (o : VarOffset) (len : ℕ) : Bool :=
  if 0 ≤ o.raw ∧ o.raw < L.len o.isFf then rangeMayReach (L.cover o.isFf) o.raw.toNat len
  else true

/-- Whether a change of combinational storage may reach what the comb reads. -/
def combChangeMayReachComb (off len : ℕ) : Bool :=
  if L.combLen ≤ off then true else rangeMayReach (L.cover false) off len

end Layout

mutual

def isCleanStmt (L : Layout) : ProtoStatement → Bool
  | .assign x => !L.writeMayReachComb x.dst (nativeBytes x.dstWidth)
  | .assignDynamic x =>
    -- the index is dynamic, so every element is a possible write
    let len := x.dstStride.natAbs * max x.dstNumElements 1 + nativeBytes x.dstWidth
    !L.writeMayReachComb x.dstBase len
  | .ifStmt _ trueSide falseSide => allClean L trueSide && allClean L falseSide
  | .caseStmt arms default => armsClean L arms && allClean L default
  | .forStmt x body => !L.writeMayReachComb x.varOffset x.varNativeBytes && allClean L body
  | .sequentialBlock body => allClean L body
  | .breakStmt => true
  | .compiledBlock x _ =>
    -- the outputs of a block that was moved are not known
    if x.ffDeltaBytes = 0 ∧ x.combDeltaBytes = 0 then
      x.outputOffsets.all fun o => decide (0 ≤ o.raw) && !L.writeMayReachComb o 1
    else false
  | .systemFunctionCall _ => false
  | .tbMethodCall _ _ => false
termination_by structural s => s

def allClean (L : Layout) : List ProtoStatement → Bool
  | [] => true
  | s :: body => isCleanStmt L s && allClean L body
termination_by structural body => body

def armsClean (L : Layout) : List (ProtoExpression × List ProtoStatement) → Bool
  | [] => true
  | (_, body) :: arms => allClean L body && armsClean L arms
termination_by structural arms => arms

end

theorem allClean_eq (L : Layout) (body : List ProtoStatement) :
    allClean L body = body.all (isCleanStmt L) := by
  induction body with
  | nil => rfl
  | cons s body ih => rw [allClean, ih, all_cons]

theorem armsClean_eq (L : Layout) (arms : List (ProtoExpression × List ProtoStatement)) :
    armsClean L arms = arms.all fun a => allClean L a.2 := by
  induction arms with
  | nil => rfl
  | cons a arms ih => rw [armsClean, ih, all_cons]

end Query

section Cover

instance : Std.Total spanLe :=
  ⟨fun a b => by
    unfold spanLe
    omega⟩

instance : IsTrans Span spanLe :=
  ⟨fun a b c hab hbc => by
    unfold spanLe at *
    omega⟩

/-- What the cover keeps of the spans merged so far: its spans lie apart and together
hold their bytes, and a touched span makes the span it is merged into touched. -/
structure Covers (done out : List Span) : Prop where
  nonempty : ∀ u ∈ out, u.start < u.end_
  apart : out.Pairwise fun later earlier => earlier.end_ ≤ later.start
  start : ∀ u ∈ out, ∃ d ∈ done, d.start = u.start
  covers : ∀ d ∈ done, ∃ u ∈ out, u.start ≤ d.start ∧ d.end_ ≤ u.end_ ∧ (d.touched → u.touched)
  holds : ∀ u ∈ out, ∀ b, u.Has b → ∃ d ∈ done, d.Has b

theorem Covers.push {done out : List Span} (h : Covers done out)
    (hne : s.start < s.end_) (hs : ∀ u ∈ out, u.end_ ≤ s.start) :
    Covers (done ++ [s]) (s :: out) where
  nonempty := forall_mem_cons.2 ⟨hne, h.nonempty⟩
  apart := pairwise_cons.2 ⟨hs, h.apart⟩
  start := forall_mem_cons.2
    ⟨Library.exists_mem_snoc_self rfl, fun u hu => Library.exists_mem_snoc (h.start u hu)⟩
  covers := Library.covers_push h.covers ⟨le_rfl, le_rfl, id⟩
  holds := forall_mem_cons.2 ⟨fun _ hb => Library.exists_mem_snoc_self hb,
    fun u hu b hb => Library.exists_mem_snoc (h.holds u hu b hb)⟩

theorem Covers.merge {done rest : List Span} {prev : Span} {end_ : ℕ} {touched : Bool}
    (h : Covers done (prev :: rest)) (hstart : prev.start ≤ s.start)
    (htouch : s.start ≤ prev.end_) (hend : end_ = max prev.end_ s.end_)
    (hprev : prev.touched → touched) (hs : s.touched → touched) :
    Covers (done ++ [s]) ({ prev with end_ := end_, touched := touched } :: rest) := by
  subst hend
  have hnonempty := forall_mem_cons.1 h.nonempty
  have hold := forall_mem_cons.1 h.start
  have hholds := forall_mem_cons.1 h.holds
  refine
    { nonempty := forall_mem_cons.2 ⟨lt_max_of_lt_left hnonempty.1, hnonempty.2⟩
      apart := pairwise_cons.2 ⟨fun e he => rel_of_pairwise_cons h.apart he, h.apart.of_cons⟩
      start := forall_mem_cons.2 ⟨Library.exists_mem_snoc hold.1,
        fun u hu => Library.exists_mem_snoc (hold.2 u hu)⟩
      covers := Library.covers_merge h.covers
        (fun d hd => ⟨hd.1, hd.2.1.trans (le_max_left _ _), fun hm => hprev (hd.2.2 hm)⟩)
        ⟨hstart, le_max_right _ _, hs⟩
      holds := forall_mem_cons.2 ⟨fun b hb => ?_,
        fun u hu b hb => Library.exists_mem_snoc (hholds.2 u hu b hb)⟩ }
  by_cases hbs : b < prev.end_
  · exact Library.exists_mem_snoc (hholds.1 b ⟨hb.1, hbs⟩)
  · have hlo : s.start ≤ b := by omega
    exact Library.exists_mem_snoc_self ⟨hlo, (lt_max_iff.1 hb.2).resolve_left hbs⟩

theorem Covers.step {done out : List Span} (h : Covers done out)
    (hs : ∀ d ∈ done, d.start ≤ s.start) (hne : s.start < s.end_) :
    Covers (done ++ [s]) (coverStep out s) := by
  have hstart : ∀ u ∈ out, u.start ≤ s.start := by
    intro u hu
    obtain ⟨d, hd, he⟩ := h.start u hu
    exact he ▸ hs d hd
  cases out with
  | nil => exact h.push hne (by simp)
  | cons prev rest =>
    have hprev := hstart prev mem_cons_self
    rw [coverStep]
    split_ifs with hover habut
    · exact h.merge hprev hover.le rfl (fun hp => by simp [hp]) (fun hs => by simp [hs])
    · refine h.merge hprev habut.1.le ?_ id (fun hs => habut.2 ▸ hs)
      exact (max_eq_right (habut.1 ▸ hne.le)).symm
    · refine h.push hne fun u hu => ?_
      rcases mem_cons.1 hu with rfl | hu
      · exact not_lt.1 hover
      · exact (rel_of_pairwise_cons h.apart hu).trans hprev

theorem disjointCover_rule {P : List Span → List Span → Prop} (hnil : P [] [])
    (hstep : ∀ done out s, P done out → s ∈ spans → (∀ d ∈ done, d ∈ spans ∧ d.start ≤ s.start) →
      P (done ++ [s]) (coverStep out s)) :
    P (spans.insertionSort spanLe) (disjointCover spans).reverse := by
  rw [disjointCover, reverse_reverse]
  refine Library.foldl_insertionSort hnil fun done s out hs hd h => hstep done out s h hs ?_
  exact fun d hmem => ⟨(hd d hmem).1, (hd d hmem).2.elim le_of_lt fun h => h.1.le⟩

theorem covers_nil : Covers [] [] := ⟨by simp, by simp, by simp, by simp, by simp⟩

theorem covers_disjointCover (hne : ∀ s ∈ spans, s.start < s.end_) :
    Covers spans (disjointCover spans).reverse := by
  have h : Covers (spans.insertionSort spanLe) (disjointCover spans).reverse :=
    disjointCover_rule covers_nil fun done out s h hs hd =>
      h.step (fun d hmem => (hd d hmem).2) (hne s hs)
  have hmem : ∀ s, s ∈ spans.insertionSort spanLe ↔ s ∈ spans := fun s =>
    mem_insertionSort _
  refine ⟨h.nonempty, h.apart, fun u hu => ?_, fun d hd => h.covers d ((hmem d).2 hd),
    fun u hu b hb => ?_⟩
  · obtain ⟨d, hd, he⟩ := h.start u hu
    exact ⟨d, (hmem d).1 hd, he⟩
  · obtain ⟨d, hd, hdb⟩ := h.holds u hu b hb
    exact ⟨d, (hmem d).1 hd, hdb⟩

/-- Spans in order that lie apart. -/
structure Apart (spans : List Span) : Prop where
  nonempty : ∀ s ∈ spans, s.start < s.end_
  apart : spans.Pairwise fun earlier later => earlier.end_ ≤ later.start

theorem Covers.apart_reverse {done out : List Span} (h : Covers done out) : Apart out.reverse where
  nonempty s hs := h.nonempty s (mem_reverse.1 hs)
  apart := pairwise_reverse.2 h.apart

theorem apart_disjointCover (hne : ∀ s ∈ spans, s.start < s.end_) :
    Apart (disjointCover spans) := by
  simpa using (covers_disjointCover hne).apart_reverse

theorem Apart.of_cons {rest : List Span} (h : Apart (s :: rest)) : Apart rest where
  nonempty t ht := h.nonempty t (mem_cons_of_mem _ ht)
  apart := h.apart.of_cons

theorem Apart.eq_of_has (h : Apart spans) {t : Span} (hs : s ∈ spans)
    (ht : t ∈ spans) {b : ℕ} (hsb : s.Has b) (htb : t.Has b) : s = t := by
  obtain ⟨i, hi, rfl⟩ := mem_iff_getElem.1 hs
  obtain ⟨j, hj, rfl⟩ := mem_iff_getElem.1 ht
  rcases lt_trichotomy i j with hij | rfl | hij
  · have := pairwise_iff_getElem.1 h.apart i j hi hj hij
    exact absurd (htb.1.trans_lt hsb.2) (not_lt.2 this)
  · rfl
  · have := pairwise_iff_getElem.1 h.apart j i hj hi hij
    exact absurd (hsb.1.trans_lt htb.2) (not_lt.2 this)

end Cover

section Range

variable {spans : List Span} {off len stop covered : ℕ}

theorem mem_dropWhile_iff (h : Apart spans) :
    s ∈ spans.dropWhile (fun s => s.end_ ≤ off) ↔ s ∈ spans ∧ off < s.end_ := by
  induction spans with
  | nil => simp
  | cons first rest ih =>
    rw [dropWhile_cons]
    split_ifs with hend
    · rw [ih h.of_cons]
      simp only [decide_eq_true_eq] at hend
      refine ⟨fun hs => ⟨mem_cons_of_mem _ hs.1, hs.2⟩, fun hs => ⟨?_, hs.2⟩⟩
      rcases mem_cons.1 hs.1 with rfl | hmem
      · omega
      · exact hmem
    · simp only [decide_eq_true_eq, not_le] at hend
      refine ⟨fun hs => ⟨hs, ?_⟩, fun hs => hs.1⟩
      rcases mem_cons.1 hs with rfl | hmem
      · exact hend
      · have hle := rel_of_pairwise_cons h.apart hmem
        have hne := h.nonempty s hs
        omega

theorem Apart.dropWhile (h : Apart spans) : Apart (spans.dropWhile fun s => s.end_ ≤ off) where
  nonempty s hs := h.nonempty s ((dropWhile_sublist _).subset hs)
  apart := h.apart.sublist (dropWhile_sublist _)

/-- The walk finds every byte of the write in a span that is not touched. -/
theorem coveredTo_eq_false_iff (h : Apart spans) (hend : ∀ s ∈ spans, covered < s.end_)
    (hstop : covered < stop ∨ ∀ s ∈ spans, stop ≤ s.start) :
    coveredTo stop covered spans = false ↔
      ∀ b, covered ≤ b → b < stop → ∃ s ∈ spans, s.Has b ∧ s.touched = false := by
  induction spans generalizing covered with
  | nil =>
    simp only [coveredTo, decide_eq_false_iff_not, not_mem_nil, false_and, exists_false]
    exact ⟨fun hle b hb hbs => absurd (hb.trans_lt hbs) hle, fun hall hlt => hall _ le_rfl hlt⟩
  | cons s rest ih =>
    have hs := hend s mem_cons_self
    have hrest : ∀ t ∈ rest, s.end_ ≤ t.start := fun t ht => rel_of_pairwise_cons h.apart ht
    -- no span holds a byte before the first one
    have hgap : ∀ {b}, b < s.start → ¬ ∃ t ∈ s :: rest, t.Has b ∧ t.touched = false := by
      rintro b hb ⟨t, ht, ⟨hlo, -⟩, -⟩
      rcases mem_cons.1 ht with rfl | ht
      · omega
      · have := hrest t ht
        have := h.nonempty s mem_cons_self
        omega
    rw [coveredTo]
    split_ifs with hstart hcov htouched
    · refine iff_of_false (by simp) fun hall => ?_
      exact hgap hcov (hall covered le_rfl (hcov.trans hstart))
    · have hlt : covered < stop := hstop.resolve_right fun hall =>
        absurd (hall s mem_cons_self) (not_le.2 hstart)
      refine iff_of_false (by simp) fun hall => ?_
      obtain ⟨t, ht, htc, hfree⟩ := hall covered le_rfl hlt
      have heq := h.eq_of_has mem_cons_self ht ⟨not_lt.1 hcov, hs⟩ htc
      rw [← heq, htouched] at hfree
      cases hfree
    · rw [max_eq_right hs.le, ih h.of_cons]
      · refine ⟨fun hall b hb hbs => ?_, fun hall b hb hbs => ?_⟩
        · rcases lt_or_ge b s.end_ with hlt | hge
          · exact ⟨s, mem_cons_self, ⟨(not_lt.1 hcov).trans hb, hlt⟩, Bool.eq_false_iff.2 htouched⟩
          · obtain ⟨t, ht, hres⟩ := hall b hge hbs
            exact ⟨t, mem_cons_of_mem _ ht, hres⟩
        · obtain ⟨t, ht, htb, hres⟩ := hall b (hs.le.trans hb) hbs
          rcases mem_cons.1 ht with rfl | ht
          · exact absurd htb.2 (not_lt.2 hb)
          · exact ⟨t, ht, htb, hres⟩
      · intro t ht
        exact (hrest t ht).trans_lt (h.nonempty t (mem_cons_of_mem _ ht))
      · rcases lt_or_ge s.end_ stop with hlt | hge
        · exact .inl hlt
        · exact .inr fun t ht => hge.trans (hrest t ht)
    · refine ⟨fun hle b hb hbs => ?_, fun hall => ?_⟩
      · simp only [decide_eq_false_iff_not, not_lt] at hle
        omega
      · rw [decide_eq_false_iff_not]
        intro hlt
        exact hgap (hlt.trans_le (not_lt.1 hstart)) (hall covered le_rfl hlt)

theorem rangeMayReach_eq_false_iff (h : Apart spans) (hoff : off < usizeMax) :
    rangeMayReach spans off len = false ↔
      ∀ b, off ≤ b → b < writeEnd off len → ∃ s ∈ spans, s.Has b ∧ s.touched = false := by
  rw [rangeMayReach, coveredTo_eq_false_iff h.dropWhile]
  · refine forall₃_congr fun b hb _ => exists_congr fun s => ?_
    rw [mem_dropWhile_iff h]
    refine ⟨fun hs => ⟨hs.1.1, hs.2⟩, fun hs => ⟨⟨hs.1, ?_⟩, hs.2⟩⟩
    exact hb.trans_lt hs.2.1.2
  · exact fun s hs => ((mem_dropWhile_iff h).1 hs).2
  · refine .inl (lt_min ?_ hoff)
    omega

end Range

end Veryl.Simulator.TbDirty
