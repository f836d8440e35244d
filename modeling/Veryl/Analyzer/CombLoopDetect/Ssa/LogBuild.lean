import Veryl.Analyzer.CombLoopDetect.Ssa.LogWalk

/-!
Pushing and merging build histories whose jumps pass only layers within their
bounds.
-/

namespace Veryl.Analyzer.CombLoopDetect

open List Option

variable {self common : ℕ} {branches : List ℕ}

namespace Logs

variable {logs : Logs} {x : LogNode} {n m k : ℕ} {bounds bounds' : Option PositionDomain}

theorem node_append_lt (h : n < logs.length) : (logs ++ [x] : Logs).node n = logs.node n := by
  unfold node
  rw [getElem?_append_left h]

theorem node_append_length (logs : Logs) (x : LogNode) :
    (logs ++ [x] : Logs).node logs.length = x := by
  unfold node
  rw [getElem?_concat_length]
  rfl

theorem node_of_le (h : logs.length ≤ n) : logs.node n = ⟨none, none, none, 0, 0, none⟩ := by
  unfold node
  rw [getElem?_eq_none h]
  rfl

/-- Earlier nodes stay as they are. -/
def Grows (logs logs' : Logs) : Prop :=
  logs.length ≤ logs'.length ∧ ∀ n < logs.length, logs'.node n = logs.node n

theorem Grows.refl (logs : Logs) : Grows logs logs := ⟨Nat.le_refl _, fun _ _ => rfl⟩

theorem Grows.trans {logs₁ logs₂ logs₃ : Logs} (h : Grows logs₁ logs₂) (h' : Grows logs₂ logs₃) :
    Grows logs₁ logs₃ :=
  ⟨h.1.trans h'.1, fun n hn => (h'.2 n (Nat.lt_of_lt_of_le hn h.1)).trans (h.2 n hn)⟩

theorem grows_append (logs : Logs) (x : LogNode) : Grows logs (logs ++ [x]) :=
  ⟨by simp, fun _ => node_append_lt⟩

theorem inBounds_hull {a b : Option PositionDomain} {p : BitPosition}
    (h : InBounds a p ∨ InBounds b p) : InBounds (hull a b) p := by
  cases a with
  | none =>
    have hb : InBounds b p := h.resolve_left fun ⟨d, hd, _⟩ => by cases hd
    cases b <;> exact hb
  | some a =>
    cases b with
    | none => exact h.resolve_right fun ⟨d, hd, _⟩ => by cases hd
    | some b =>
      refine ⟨a.hull b, rfl, hasBit_hull ?_⟩
      rcases h with ⟨d, hd, hp⟩ | ⟨d, hd, hp⟩
      · exact .inl (some.inj hd ▸ hp)
      · exact .inr (some.inj hd ▸ hp)

theorem Down.mono (h : Down logs bounds n k) (hle : ∀ p, InBounds bounds p → InBounds bounds' p) :
    Down logs bounds' n k := by
  induction h with
  | refl n => exact .refl n
  | layer hl hm hin _ ih => exact .layer hl hm (fun p hp => hle p (hin p hp)) ih

theorem Down.trans (h : Down logs bounds n m) (h' : Down logs bounds m k) :
    Down logs bounds n k := by
  induction h with
  | refl _ => exact h'
  | layer hl hm hin _ ih => exact .layer hl hm hin (ih h')

theorem Down.grows {logs' : Logs} (hlogs : logs.Ok) (hgrows : Grows logs logs')
    (hn : n < logs.length)
    (h : Down logs bounds n k) : Down logs' bounds n k := by
  induction h with
  | refl n => exact .refl n
  | @layer n m k l hl hm hin _ ih =>
    obtain ⟨m', hm', hlt, -⟩ := hlogs.prev n l hl
    cases hm.symm.trans hm'
    rw [← hgrows.2 n hn] at hl hm
    exact .layer hl hm hin (ih (Nat.lt_trans hlt hn))

/-- A pushed node. -/
structure Pushed (logs : Logs) (tip : ℕ) (layer : Layer) (r : ℕ × Logs) : Prop where
  grows : Grows logs r.2
  lt : r.1 < r.2.length
  layer : (r.2.node r.1).layer = some layer
  prev : (r.2.node r.1).prev = some tip
  base : (r.2.node r.1).base = (logs.node tip).base

theorem pushed_push (logs : Logs) (self : ℕ) (layer : Layer) :
    Pushed logs self layer (logs.push self layer) := by
  have hnode := node_append_length logs ⟨some self, (logs.jumpFrom self layer.bounds).1, some layer,
    (logs.node self).base, (logs.node self).len + 1, (logs.jumpFrom self layer.bounds).2⟩
  have hbase := congrArg LogNode.base hnode
  exact ⟨grows_append _ _, by simp [push], congrArg LogNode.layer hnode, congrArg LogNode.prev hnode,
    hbase⟩

section

variable (h : logs.Ok)

include h

theorem ok_append (hbottom : x.layer = none → x.len = 0)
    (hprev : ∀ l, x.layer = some l → ∃ m, x.prev = some m ∧ m < logs.length ∧
      x.len = (logs.node m).len + 1 ∧ x.base = (logs.node m).base)
    (hjump : ∀ j, x.jump = some j → j < logs.length ∧ Down (logs ++ [x]) x.bounds logs.length j)
    (hmerge : ∀ common branches bounds, x.layer = some (.merge common branches bounds) →
      x.prev = some common ∧ branches ≠ [] ∧ ∀ b ∈ branches, b < logs.length ∧ ∃ k,
        Down logs bounds b k ∧ (logs.node k).len = (logs.node common).len ∧ Meets logs common k) :
    (logs ++ [x] : Logs).Ok := by
  have hgrows := grows_append logs x
  have hcases : ∀ n, n < logs.length ∧ (logs ++ [x] : Logs).node n = logs.node n ∨
      n = logs.length ∧ (logs ++ [x] : Logs).node n = x ∨
      (logs ++ [x] : Logs).node n = ⟨none, none, none, 0, 0, none⟩ := by
    intro n
    rcases Nat.lt_trichotomy n logs.length with hlt | rfl | hgt
    · exact .inl ⟨hlt, node_append_lt hlt⟩
    · exact .inr (.inl ⟨rfl, node_append_length logs x⟩)
    · exact .inr (.inr (node_of_le (by simp; omega)))
  have hbranches : ∀ {bounds common b k : _}, common < logs.length → b < logs.length →
      Down logs bounds b k → (logs.node k).len = (logs.node common).len → Meets logs common k →
      ∃ k, Down (logs ++ [x]) bounds b k ∧
        ((logs ++ [x] : Logs).node k).len = ((logs ++ [x] : Logs).node common).len ∧
        Meets (logs ++ [x]) common k := by
    intro bounds common b k hcommon hb hdown hlen hmeets
    have hk : k < logs.length := Nat.lt_of_le_of_lt (h.len_le hdown).1 hb
    refine ⟨k, hdown.grows h hgrows hb, ?_, ?_⟩
    · rw [node_append_lt hk, node_append_lt hcommon, hlen]
    · unfold Meets at hmeets ⊢
      rwa [node_append_lt hk, node_append_lt hcommon]
  refine ⟨fun n hn => ?_, fun n l hl => ?_, fun n j hj => ?_, fun n common branches bounds hl => ?_⟩
  · rcases hcases n with ⟨-, heq⟩ | ⟨-, heq⟩ | heq <;> rw [heq] at hn ⊢
    · exact h.bottom n hn
    · exact hbottom hn
  · rcases hcases n with ⟨hn, heq⟩ | ⟨rfl, heq⟩ | heq <;> rw [heq] at hl ⊢
    · obtain ⟨m, hm, hlt, hrest⟩ := h.prev n l hl
      exact ⟨m, hm, hlt, by rwa [node_append_lt (Nat.lt_trans hlt hn)]⟩
    · obtain ⟨m, hm, hlt, hrest⟩ := hprev l hl
      exact ⟨m, hm, hlt, by rwa [node_append_lt hlt]⟩
    · cases hl
  · rcases hcases n with ⟨hn, heq⟩ | ⟨rfl, heq⟩ | heq <;> rw [heq] at hj ⊢
    · obtain ⟨hlt, hdown⟩ := h.jump n j hj
      exact ⟨hlt, hdown.grows h hgrows hn⟩
    · exact hjump j hj
    · cases hj
  · rcases hcases n with ⟨hn, heq⟩ | ⟨rfl, heq⟩ | heq <;> rw [heq] at hl ⊢
    · obtain ⟨hcommon, hne, hb⟩ := h.merge n common branches bounds hl
      obtain ⟨m, hm, hlt, -⟩ := h.prev n _ hl
      cases hcommon.symm.trans hm
      refine ⟨hcommon, hne, fun b hb' => ?_⟩
      obtain ⟨hbn, k, hdown, hlen, hmeets⟩ := hb b hb'
      exact ⟨hbn, hbranches (Nat.lt_trans hlt hn) (Nat.lt_trans hbn hn) hdown hlen hmeets⟩
    · obtain ⟨hcommon, hne, hb⟩ := hmerge common branches bounds hl
      obtain ⟨m, hm, hlt, -⟩ := hprev _ hl
      cases hcommon.symm.trans hm
      refine ⟨hcommon, hne, fun b hb' => ?_⟩
      obtain ⟨hbn, k, hdown, hlen, hmeets⟩ := hb b hb'
      exact ⟨hbn, hbranches hlt hbn hdown hlen hmeets⟩
    · cases hl

theorem ok_root (base : VersionId) : (logs.root base).2.Ok :=
  ok_append h (fun _ => rfl) (fun _ hl => by cases hl) (fun _ hj => by cases hj)
    fun _ _ _ hl => by cases hl

theorem down_jumpFrom {own : Option PositionDomain} {j : ℕ}
    (hj : (logs.jumpFrom self own).1 = some j) :
    j ≤ self ∧ Down logs (logs.jumpFrom self own).2 self j ∧
      ∀ p, InBounds own p → InBounds (logs.jumpFrom self own).2 p := by
  unfold jumpFrom at hj ⊢
  dsimp only at hj ⊢
  split at hj
  · cases hj
    exact ⟨Nat.le_refl _, .refl _, fun _ => id⟩
  · rename_i first hfirst
    split at hj
    · cases hj
      exact ⟨Nat.le_refl _, .refl _, fun _ => id⟩
    · rename_i second hsecond
      split at hj
      · rename_i hlen
        obtain rfl : second = j := some.inj hj
        obtain ⟨hlt, hdown⟩ := h.jump self first hfirst
        obtain ⟨hlt', hdown'⟩ := h.jump first second hsecond
        rw [if_pos hlen]
        refine ⟨by omega, (hdown.mono fun p hp => ?_).trans (hdown'.mono fun p hp => ?_), fun p hp => ?_⟩
        · exact inBounds_hull (.inl (inBounds_hull (.inr hp)))
        · exact inBounds_hull (.inr hp)
        · exact inBounds_hull (.inl (inBounds_hull (.inl hp)))
      · rename_i hlen
        cases hj
        rw [if_neg hlen]
        exact ⟨Nat.le_refl _, .refl _, fun _ => id⟩

theorem ok_push (hself : self < logs.length) {layer : Layer}
    (hmerge : ∀ common branches bounds, layer = .merge common branches bounds →
      self = common ∧ branches ≠ [] ∧ ∀ b ∈ branches, b < logs.length ∧ ∃ k,
        Down logs bounds b k ∧ (logs.node k).len = (logs.node common).len ∧ Meets logs common k) :
    (logs.push self layer).2.Ok := by
  refine ok_append h (fun hl => by cases hl) (fun l _ => ⟨self, rfl, hself, rfl, rfl⟩)
    (fun j hj => ?_) fun common branches bounds hl => ?_
  · obtain ⟨hle, hdown, hown⟩ := down_jumpFrom h hj
    refine ⟨by omega, .layer (l := layer) ?_ ?_ hown
      (hdown.grows h (grows_append _ _) hself)⟩ <;> rw [node_append_length]
  · obtain ⟨rfl, hrest⟩ := hmerge common branches bounds (some.inj hl)
    exact ⟨rfl, hrest⟩

theorem down_descend {turns node : ℕ}
    (hd : logs.descend common turns node bounds = some (k, bounds')) :
    Down logs bounds' node k ∧ (logs.node k).len ≤ (logs.node common).len ∧
      ∀ p, InBounds bounds p → InBounds bounds' p := by
  induction turns generalizing node bounds with
  | zero => cases hd
  | succ turns ih =>
    simp only [descend] at hd
    split at hd
    · rename_i hlt
      cases hl : (logs.node node).layer with
      | none =>
        have := h.bottom node hl
        omega
      | some l =>
        obtain ⟨m, hm, -⟩ := h.prev node l hl
        rw [hm, hl] at hd
        obtain ⟨hdown, hlen, hle⟩ := ih hd
        exact ⟨.layer hl hm (fun p hp => hle p (inBounds_hull (.inr hp))) hdown, hlen,
          fun p hp => hle p (inBounds_hull (.inl hp))⟩
    · obtain ⟨rfl, rfl⟩ := Prod.mk.inj (some.inj hd)
      exact ⟨.refl _, by omega, fun _ => id⟩

theorem mergeBounds_spec (hb : logs.mergeBounds common branches bounds = some bounds') :
    (∀ p, InBounds bounds p → InBounds bounds' p) ∧ ∀ b ∈ branches, ∃ k,
      Down logs bounds' b k ∧ (logs.node k).len = (logs.node common).len ∧ Meets logs common k := by
  induction branches generalizing bounds with
  | nil =>
    cases hb
    exact ⟨fun _ => id, fun b hb => absurd hb not_mem_nil⟩
  | cons branch branches ih =>
    simp only [mergeBounds] at hb
    split at hb
    · cases hb
    rename_i node bounds₁ hdescend
    split at hb
    · rename_i hmeets
      obtain ⟨hdown, hlen, hle⟩ := down_descend h hdescend
      obtain ⟨hle', hbranches⟩ := ih hb
      refine ⟨fun p hp => hle' p (hle p hp), fun b hb => ?_⟩
      rcases mem_cons.1 hb with rfl | hb
      · refine ⟨node, hdown.mono hle', ?_, hmeets⟩
        rcases hmeets with rfl | ⟨hzero, -⟩
        · rfl
        · omega
      · exact hbranches b hb
    · cases hb

theorem ok_merge (hcommon : common < logs.length)
    (hne : branches ≠ []) (hbranches : ∀ b ∈ branches, b < logs.length) {r : ℕ × Logs}
    (hr : logs.merge common branches = some r) :
    r.2.Ok ∧ ∃ bounds, r = logs.push common (.merge common branches bounds) := by
  obtain ⟨bounds, hbounds, rfl⟩ := map_eq_some_iff.1 hr
  refine ⟨ok_push h hcommon ?_, bounds, rfl⟩
  rintro common' branches' bounds' heq
  cases heq
  exact ⟨rfl, hne, fun b hb => ⟨hbranches b hb, (mergeBounds_spec h hbounds).2 b hb⟩⟩

end

end Logs
end Veryl.Analyzer.CombLoopDetect
