import HftSim.Lib.BinHeap

/-!
# The two sifts as functions on the store

`siftUp` and `siftDown` put a travelling node `x` into a store with a hole at `t`: each round either
fills the hole or moves a neighbour into it and goes on from the neighbour's cell. `wins a b` says
that `a` belongs above `b`; nothing is asked of it. Both read the store off the hole only and inside
the heap only, so two stores that agree there give the same result (`siftUp_congr`,
`siftDown_congr`), whatever the hole and the cells past the end contain.
-/

namespace BinHeap

open Function

variable {α : Type*} (wins : α → α → Bool) {f g : Nat → α} {x : α} {n t : Nat}

/-- The hole `t` goes up while `x` wins against the node above it. -/
def siftUp (f : Nat → α) (x : α) (t : Nat) : Nat → α :=
  if h : 0 < t then
    if wins x (f (parent t)) then siftUp (update f t (f (parent t))) x (parent t) else update f t x
  else update f t x
termination_by t
decreasing_by exact parent_lt h

/-- The child that moves up into the hole `t`: the right one if it wins against the left one and
`x`, else the left one if it wins against `x`. -/
def bestChild (f : Nat → α) (x : α) (n t : Nat) : Option Nat :=
  if 2 * t + 2 < n ∧ wins (f (2 * t + 2)) (if wins (f (2 * t + 1)) x then f (2 * t + 1) else x) then
    some (2 * t + 2)
  else if 2 * t + 1 < n ∧ wins (f (2 * t + 1)) x then some (2 * t + 1)
  else none

variable {wins} in
theorem bestChild_range {c : Nat} (h : bestChild wins f x n t = some c) : t < c ∧ c < n := by
  unfold bestChild at h
  split_ifs at h with h1 h2
  all_goals cases h; omega

/-- The hole `t` goes down while a child wins against `x`. -/
def siftDown (f : Nat → α) (x : α) (n t : Nat) : Nat → α :=
  match h : bestChild wins f x n t with
  | none => update f t x
  | some c => siftDown (update f t (f c)) x n c
termination_by n - t
decreasing_by have := bestChild_range h; omega

/-- The cell in which the sift down from `t` leaves `x`. -/
def siftEnd (f : Nat → α) (x : α) (n t : Nat) : Nat :=
  match h : bestChild wins f x n t with
  | none => t
  | some c => siftEnd (update f t (f c)) x n c
termination_by n - t
decreasing_by have := bestChild_range h; omega

section

variable {wins}

theorem siftUp_zero : siftUp wins f x 0 = update f 0 x := by
  rw [siftUp, dif_neg (Nat.lt_irrefl 0)]

theorem siftUp_rise (ht : 0 < t) (hw : wins x (f (parent t)) = true) :
    siftUp wins f x t = siftUp wins (update f t (f (parent t))) x (parent t) := by
  rw [siftUp, dif_pos ht, if_pos hw]

theorem siftUp_stop (hw : 0 < t → wins x (f (parent t)) = false) : siftUp wins f x t = update f t x := by
  rw [siftUp]
  split_ifs with ht h
  · rw [hw ht] at h; cases h
  · rfl
  · rfl

theorem siftDown_sink {c : Nat} (h : bestChild wins f x n t = some c) :
    siftDown wins f x n t = siftDown wins (update f t (f c)) x n c := by
  rw [siftDown]
  split
  · rename_i h'
    rw [h] at h'; cases h'
  · rename_i c' h'
    rw [h] at h'; cases h'; rfl

theorem siftDown_stop (h : bestChild wins f x n t = none) : siftDown wins f x n t = update f t x := by
  rw [siftDown]
  split
  · rfl
  · rename_i c' h'
    rw [h] at h'; cases h'

theorem siftEnd_sink {c : Nat} (h : bestChild wins f x n t = some c) :
    siftEnd wins f x n t = siftEnd wins (update f t (f c)) x n c := by
  rw [siftEnd]
  split
  · rename_i h'
    rw [h] at h'; cases h'
  · rename_i c' h'
    rw [h] at h'; cases h'; rfl

theorem siftEnd_stop (h : bestChild wins f x n t = none) : siftEnd wins f x n t = t := by
  rw [siftEnd]
  split
  · rfl
  · rename_i c' h'
    rw [h] at h'; cases h'

theorem siftEnd_range : t ≤ siftEnd wins f x n t ∧ (t < n → siftEnd wins f x n t < n) := by
  induction hm : n - t using Nat.strong_induction_on generalizing f t with
  | _ m ih =>
    cases hc : bestChild wins f x n t with
    | none =>
      rw [siftEnd_stop hc]
      exact ⟨Nat.le_refl _, id⟩
    | some c =>
      obtain ⟨htc, hcn⟩ := bestChild_range hc
      obtain ⟨h1, h2⟩ := @ih (n - c) (by omega) (update f t (f c)) c rfl
      rw [siftEnd_sink hc]
      exact ⟨by omega, fun _ => h2 hcn⟩

/-! ### What the sifts read -/

/-- Two stores that agree off the hole `t`, with the hole filled the same way. -/
theorem update_congr_off {m j : Nat} {y : α} (h : ∀ j, j < m → j ≠ t → f j = g j) (hj : j < m) :
    update f t y j = update g t y j := by
  by_cases hjt : j = t
  · rw [hjt, update_self, update_self]
  · rw [update_of_ne hjt, update_of_ne hjt, h j hj hjt]

theorem siftUp_congr {m : Nat} (ht : t < m) (h : ∀ j, j < m → j ≠ t → f j = g j) :
    ∀ j, j < m → siftUp wins f x t j = siftUp wins g x t j := by
  induction t using Nat.strong_induction_on generalizing f g with
  | _ t ih =>
    intro j hj
    rcases Nat.eq_zero_or_pos t with rfl | hpos
    · rw [siftUp_zero, siftUp_zero]
      exact update_congr_off h hj
    have hp := parent_lt hpos
    have hup : f (parent t) = g (parent t) := h _ (Nat.lt_trans hp ht) (Nat.ne_of_lt hp)
    cases hw : wins x (f (parent t)) with
    | false =>
      rw [siftUp_stop fun _ => hw, siftUp_stop fun _ => hup ▸ hw]
      exact update_congr_off h hj
    | true =>
      rw [siftUp_rise hpos hw, siftUp_rise hpos (hup ▸ hw), hup]
      exact ih _ hp (Nat.lt_trans hp ht) (fun k hk _ => update_congr_off h hk) j hj

theorem bestChild_congr (h : ∀ j, t < j → j < n → f j = g j) :
    bestChild wins f x n t = bestChild wins g x n t := by
  unfold bestChild
  by_cases h1 : 2 * t + 1 < n
  · by_cases h2 : 2 * t + 2 < n
    · rw [h _ (by omega) h1, h _ (by omega) h2]
    · simp only [h2, false_and, if_false, h _ (by omega) h1]
  · have h2 : ¬ 2 * t + 2 < n := by omega
    simp only [h1, h2, false_and, if_false]

theorem siftDown_congr (h : ∀ j, j < n → j ≠ t → f j = g j) :
    ∀ j, j < n → siftDown wins f x n t j = siftDown wins g x n t j := by
  induction hm : n - t using Nat.strong_induction_on generalizing f g t with
  | _ m ih =>
    intro j hj
    have hbest : bestChild wins f x n t = bestChild wins g x n t :=
      bestChild_congr fun k htk hk => h k hk (Nat.ne_of_gt htk)
    cases hc : bestChild wins f x n t with
    | none =>
      rw [siftDown_stop hc, siftDown_stop (hbest ▸ hc)]
      exact update_congr_off h hj
    | some c =>
      obtain ⟨htc, hcn⟩ := bestChild_range hc
      have hg : siftDown wins g x n t = siftDown wins (update g t (g c)) x n c :=
        siftDown_sink (hbest ▸ hc)
      rw [siftDown_sink hc, hg, h c hcn (Nat.ne_of_gt htc)]
      exact ih (n - c) (by omega) (fun k hk _ => update_congr_off h hk) rfl j hj

/-- Where the sift ends depends on the cells below the hole only. -/
theorem siftEnd_congr (h : ∀ j, t < j → j < n → f j = g j) :
    siftEnd wins f x n t = siftEnd wins g x n t := by
  induction hm : n - t using Nat.strong_induction_on generalizing f g t with
  | _ m ih =>
    have hbest : bestChild wins f x n t = bestChild wins g x n t := bestChild_congr h
    cases hc : bestChild wins f x n t with
    | none => rw [siftEnd_stop hc, siftEnd_stop (hbest ▸ hc)]
    | some c =>
      obtain ⟨htc, hcn⟩ := bestChild_range hc
      have hg : siftEnd wins g x n t = siftEnd wins (update g t (g c)) x n c := siftEnd_sink (hbest ▸ hc)
      rw [siftEnd_sink hc, hg]
      refine ih (n - c) (by omega) (fun k hck hk => ?_) rfl
      rw [update_of_ne (by omega), update_of_ne (by omega), h k (by omega) hk]

theorem siftEnd_child {c : Nat} (h : bestChild wins f x n t = some c) :
    siftEnd wins f x n t = siftEnd wins f x n c := by
  have htc := (bestChild_range h).1
  rw [siftEnd_sink h]
  exact siftEnd_congr fun j hcj _ => update_of_ne (by omega) _ _

/-! ### The sift down makes a heap -/

variable {κ : Type*} [LinearOrder κ] {key : α → κ}

/-- The child that moves up is a best one, and better than `x`. -/
theorem bestChild_some (hw : ∀ a b, wins a b = true ↔ key a < key b) {c : Nat}
    (h : bestChild wins f x n t = some c) :
    0 < c ∧ parent c = t ∧ key (f c) < key x ∧
      ∀ d, 0 < d → d < n → parent d = t → key (f c) ≤ key (f d) := by
  have hchild : ∀ d, 0 < d → d < n → parent d = t →
      d = 2 * t + 1 ∧ 2 * t + 1 < n ∨ d = 2 * t + 2 ∧ 2 * t + 2 < n := fun d hd hdn hp => by
    rcases (parent_eq_iff hd).1 hp with rfl | rfl
    exacts [.inl ⟨rfl, hdn⟩, .inr ⟨rfl, hdn⟩]
  have hnot : ∀ a b, ¬ wins a b = true ↔ key b ≤ key a := fun a b => by rw [hw, not_lt]
  unfold bestChild at h
  by_cases hl : wins (f (2 * t + 1)) x = true
  · have hlx := (hw _ _).1 hl
    simp only [hl, if_true, and_true] at h
    split_ifs at h with h1 h2
    · cases h
      have hlt := (hw _ _).1 h1.2
      refine ⟨by omega, by unfold parent; omega, lt_trans hlt hlx, fun d hd hdn hp => ?_⟩
      rcases hchild d hd hdn hp with ⟨rfl, -⟩ | ⟨rfl, -⟩
      exacts [le_of_lt hlt, le_refl _]
    · cases h
      refine ⟨by omega, by unfold parent; omega, hlx, fun d hd hdn hp => ?_⟩
      rcases hchild d hd hdn hp with ⟨rfl, -⟩ | ⟨rfl, hn⟩
      exacts [le_refl _, (hnot _ _).1 fun hc => h1 ⟨hn, hc⟩]
  · simp only [hl, Bool.false_eq_true, if_false, and_false] at h
    split_ifs at h with h1
    cases h
    have hlt := (hw _ _).1 h1.2
    refine ⟨by omega, by unfold parent; omega, hlt, fun d hd hdn hp => ?_⟩
    rcases hchild d hd hdn hp with ⟨rfl, -⟩ | ⟨rfl, -⟩
    exacts [le_of_lt (lt_of_lt_of_le hlt ((hnot _ _).1 hl)), le_refl _]

/-- Where the hole stops no child is better than `x`. -/
theorem bestChild_none (hw : ∀ a b, wins a b = true ↔ key a < key b) (h : bestChild wins f x n t = none)
    {d : Nat} (hd : 0 < d) (hdn : d < n) (hp : parent d = t) : key x ≤ key (f d) := by
  have hnot : ∀ a b, ¬ wins a b = true ↔ key b ≤ key a := fun a b => by rw [hw, not_lt]
  unfold bestChild at h
  have hl : 2 * t + 1 < n → ¬ wins (f (2 * t + 1)) x = true := by
    intro hn hc
    simp only [hc, hn, if_true, and_true] at h
    split_ifs at h
  rcases (parent_eq_iff hd).1 hp with rfl | rfl
  · exact (hnot _ _).1 (hl hdn)
  · simp only [hl (by omega), Bool.false_eq_true, if_false, and_false, hdn, true_and] at h
    exact (hnot _ _).1 fun hc => by rw [if_pos hc] at h; cases h

/-- A store that is in order but for the hole is a heap once `x` has been sifted down, with `x` in
the place of the hole's node. -/
theorem siftDown_heap (hw : ∀ a b, wins a b = true ↔ key a < key b) (ht : t < n)
    (h : DownHole key (update f t x) n t) :
    Ordered key (siftDown wins f x n t) n ∧ contents (siftDown wins f x n t) n = contents (update f t x) n := by
  induction hm : n - t using Nat.strong_induction_on generalizing f t with
  | _ m ih =>
    cases hc : bestChild wins f x n t with
    | none =>
      rw [siftDown_stop hc]
      refine ⟨h.ordered fun d hd hdn hp => ?_, rfl⟩
      rw [update_self, update_of_ne (Nat.ne_of_gt (hp ▸ parent_lt hd))]
      exact bestChild_none hw hc hd hdn hp
    | some c =>
      obtain ⟨htc, hcn⟩ := bestChild_range hc
      obtain ⟨hc0, hpc, hlt, hbest⟩ := bestChild_some hw hc
      have hoff : ∀ d, 0 < d → parent d = t → update f t x d = f d := fun d hd hp =>
        update_of_ne (Nat.ne_of_gt (hp ▸ parent_lt hd)) _ _
      have hswap : update (update f t (f c)) c x = update f t x ∘ Equiv.swap t c :=
        update_update_eq_swap (Nat.ne_of_lt htc)
      have hdown : DownHole key (update (update f t (f c)) c x) n c := by
        rw [hswap]
        refine h.swap hc0 hcn hpc ?_ fun d hd hdn hp => ?_
        · rw [hoff c hc0 hpc, update_self]
          exact le_of_lt hlt
        · rw [hoff c hc0 hpc, hoff d hd hp]
          exact hbest d hd hdn hp
      rw [siftDown_sink hc]
      obtain ⟨h1, h2⟩ := ih (n - c) (by omega) hcn hdown rfl
      refine ⟨h1, h2.trans ?_⟩
      rw [hswap, contents_swap ht hcn]

/-- Sifting the last node down from the root leaves a heap without the root. -/
theorem siftDown_pop (hw : ∀ a b, wins a b = true ↔ key a < key b) (h : Ordered key f (n + 1)) :
    Ordered key (siftDown wins f (f n) n 0) n ∧
      f 0 ::ₘ contents (siftDown wins f (f n) n 0) n = contents f (n + 1) := by
  rcases Nat.eq_zero_or_pos n with rfl | hn
  · exact ⟨fun i _ hi => absurd hi (Nat.not_lt_zero i), contents_succ.symm⟩
  · obtain ⟨hord, hcont⟩ := siftDown_heap (x := f n) hw hn (h.downHole (Nat.le_succ n))
    exact ⟨hord, by rw [hcont, contents_pop hn]⟩

end

/-! ### Where the sift down ends -/

/-- The cells that one comes to from the root by going to the better child each time, a tie to the
left one. -/
inductive BestLine (f : Nat → α) (n : Nat) : Nat → Prop
  | root : BestLine f n 0
  | left {t : Nat} (h : BestLine f n t) (hn : 2 * t + 1 < n)
      (hb : 2 * t + 2 < n → wins (f (2 * t + 2)) (f (2 * t + 1)) = false) : BestLine f n (2 * t + 1)
  | right {t : Nat} (h : BestLine f n t) (hn : 2 * t + 2 < n)
      (hb : wins (f (2 * t + 2)) (f (2 * t + 1)) = true) : BestLine f n (2 * t + 2)

section

variable {wins} {κ : Type*} [LinearOrder κ] {key : α → κ} (hw : ∀ a b, wins a b = true ↔ key a < key b)
include hw

/-- The child that moves up is the next cell of the best line. -/
theorem BestLine.bestChild {c : Nat} (h : BestLine wins f n t) (hc : BinHeap.bestChild wins f x n t = some c) :
    BestLine wins f n c ∧ wins (f c) x = true := by
  obtain ⟨-, -, hlt, -⟩ := bestChild_some hw hc
  refine ⟨?_, (hw _ _).2 hlt⟩
  unfold BinHeap.bestChild at hc
  split_ifs at hc with hl h1 h2 h1 h2 <;> cases hc
  · exact h.right h1.1 h1.2
  · exact h.left h2.1 fun hn => Bool.eq_false_iff.2 fun hr => h1 ⟨hn, hr⟩
  · have hxl : key x ≤ key (f (2 * t + 1)) := not_lt.1 fun hc => hl ((hw _ _).2 hc)
    exact h.right h1.1 ((hw _ _).2 (lt_of_lt_of_le hlt hxl))
  · exact absurd h2.2 hl

/-- A leaf that is sifted down goes along the best line, past cells it loses to. -/
theorem BestLine.siftEnd (h : BestLine wins f n t) (ht : 0 < t → wins (f t) x = true) :
    BestLine wins f n (siftEnd wins f x n t) ∧
      (0 < BinHeap.siftEnd wins f x n t → wins (f (BinHeap.siftEnd wins f x n t)) x = true) := by
  induction hm : n - t using Nat.strong_induction_on generalizing t with
  | _ m ih =>
    cases hc : BinHeap.bestChild wins f x n t with
    | none =>
      rw [siftEnd_stop hc]
      exact ⟨h, ht⟩
    | some c =>
      obtain ⟨htc, hcn⟩ := bestChild_range hc
      obtain ⟨hline, hlose⟩ := h.bestChild hw hc
      rw [siftEnd_child hc]
      exact ih (n - c) (by omega) hline (fun _ => hlose) rfl

/-- A leaf comes to every cell of the best line that it loses to. -/
theorem BestLine.reached {c : Nat} (h : BestLine wins f n c) (ho : Ordered key f n)
    (hc : 0 < c → wins (f c) x = true) : BinHeap.siftEnd wins f x n 0 = BinHeap.siftEnd wins f x n c := by
  -- the cell above is lost to as well, and the better child is the one the leaf makes room for
  have habove : ∀ t d, d < n → parent d = t → 0 < d → wins (f d) x = true → 0 < t → wins (f t) x = true :=
    fun t d hdn hp hd hl _ => (hw _ _).2 (lt_of_le_of_lt (hp ▸ ho d hd hdn) ((hw _ _).1 hl))
  induction h with
  | root => rfl
  | @left t _ hn hb ih =>
    have hl := hc (by omega)
    rw [ih (habove t _ hn (by unfold parent; omega) (by omega) hl)]
    refine siftEnd_child ?_
    unfold BinHeap.bestChild
    rw [if_neg, if_pos ⟨hn, hl⟩]
    intro hr
    rw [hl, if_pos rfl, hb hr.1] at hr
    cases hr.2
  | @right t _ hn hb ih =>
    have hl := hc (by omega)
    rw [ih (habove t _ hn (by unfold parent; omega) (by omega) hl)]
    refine siftEnd_child ?_
    unfold BinHeap.bestChild
    rw [if_pos]
    refine ⟨hn, ?_⟩
    split
    · exact hb
    · exact hl

/-- A leaf sinks to level `k` or deeper if it loses to a cell of the best line that is so deep. -/
theorem le_siftEnd_iff (ho : Ordered key f n) {k : Nat} (hk : 0 < k) :
    k ≤ siftEnd wins f x n 0 ↔ ∃ c, k ≤ c ∧ BestLine wins f n c ∧ wins (f c) x = true := by
  constructor
  · intro hle
    obtain ⟨hline, hlose⟩ := (@BestLine.root _ wins f n).siftEnd hw (x := x) fun h0 => by omega
    exact ⟨_, hle, hline, hlose (by omega)⟩
  · rintro ⟨c, hkc, hline, hlose⟩
    rw [hline.reached hw ho fun _ => hlose]
    exact Nat.le_trans hkc siftEnd_range.1

end

end BinHeap
