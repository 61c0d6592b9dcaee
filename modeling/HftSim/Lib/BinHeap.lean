import Mathlib.Data.Finset.Image
import Mathlib.Data.Finset.Range
import Mathlib.Order.Basic

/-!
# Binary heaps in a random-access store

A heap of `n` nodes lives in the cells `0, …, n-1` of a store `f : Nat → α`; cell `i > 0` hangs
under cell `(i-1)/2`, and a smaller `key` sits closer to the root. `Ordered` is the heap order,
`contents` the multiset of the stored nodes.

The two sifts are described on the store with the travelling node already in the hole: `UpHole`
allows the edge above the hole to be out of order, `DownHole` the edges below it. One sift step
swaps the hole with its parent or with its best child (`UpHole.swap`, `DownHole.swap`); a program
that moves a hole instead of swapping has the same picture once the hole is filled in
(`update_update_eq_swap`).
-/

namespace BinHeap

open Function

/-- The cell above cell `i`. -/
def parent (i : Nat) : Nat := (i - 1) / 2

theorem parent_lt {i : Nat} (h : 0 < i) : parent i < i := by unfold parent; omega

theorem parent_eq_iff {i t : Nat} (h : 0 < i) : parent i = t ↔ i = 2 * t + 1 ∨ i = 2 * t + 2 := by
  unfold parent; omega

variable {α κ : Type*} [LinearOrder κ] {key : α → κ} {f g : Nat → α} {n t : Nat}

/-- No node has a smaller key than the node above it. -/
def Ordered (key : α → κ) (f : Nat → α) (n : Nat) : Prop :=
  ∀ i, 0 < i → i < n → key (f (parent i)) ≤ key (f i)

theorem Ordered.congr (h : Ordered key f n) (hfg : ∀ i, i < n → g i = f i) : Ordered key g n := by
  intro i hi hin
  rw [hfg i hin, hfg _ (Nat.lt_trans (parent_lt hi) hin)]
  exact h i hi hin

theorem Ordered.root_le (h : Ordered key f n) : ∀ i, i < n → key (f 0) ≤ key (f i) := by
  intro i
  induction i using Nat.strong_induction_on with
  | _ i ih =>
    intro hi
    rcases Nat.eq_zero_or_pos i with rfl | hpos
    · exact le_refl _
    · exact le_trans (ih _ (parent_lt hpos) (Nat.lt_trans (parent_lt hpos) hi)) (h i hpos hi)

theorem Ordered.update_root {x : α} (h : Ordered key f n) (hx : key x = key (f 0)) :
    Ordered key (update f 0 x) n := by
  intro i hi hin
  rw [update_of_ne (Nat.ne_of_gt hi)]
  by_cases hp : parent i = 0
  · rw [hp, update_self, hx, ← hp]; exact h i hi hin
  · rw [update_of_ne hp]; exact h i hi hin

/-! ### Contents -/

/-- The multiset of the nodes in the cells `0, …, n-1`. -/
def contents (f : Nat → α) (n : Nat) : Multiset α := (Multiset.range n).map f

@[simp] theorem contents_zero : contents f 0 = 0 := rfl

theorem contents_succ : contents f (n + 1) = f n ::ₘ contents f n := by
  simp [contents, Multiset.range_succ]

@[simp] theorem card_contents : (contents f n).card = n := by simp [contents]

theorem mem_contents {x : α} : x ∈ contents f n ↔ ∃ i, i < n ∧ f i = x := by
  simp [contents]

theorem contents_congr (h : ∀ i, i < n → g i = f i) : contents g n = contents f n :=
  Multiset.map_congr rfl fun i hi => h i (Multiset.mem_range.1 hi)

theorem contents_swap {a b : Nat} (ha : a < n) (hb : b < n) :
    contents (f ∘ Equiv.swap a b) n = contents f n := by
  have hrange : (Finset.range n).map (Equiv.swap a b).toEmbedding = Finset.range n := by
    refine Finset.map_perm fun i hi => ?_
    by_contra hin
    refine hi (Equiv.swap_apply_of_ne_of_ne ?_ ?_) <;> rintro rfl <;> simp_all
  have hval := congrArg Finset.val hrange
  rw [Finset.map_val, Finset.range_val] at hval
  conv_rhs => rw [contents, ← hval, Multiset.map_map]
  rfl

/-- Writing one cell trades the old node for the new one. -/
theorem contents_update {x : α} (ht : t < n) : f t ::ₘ contents (update f t x) n = x ::ₘ contents f n := by
  induction n with
  | zero => exact absurd ht (Nat.not_lt_zero t)
  | succ n ih =>
    rw [contents_succ, contents_succ]
    by_cases htn : t = n
    · subst htn
      have hlow : contents (update f t x) t = contents f t :=
        contents_congr fun i hi => update_of_ne (Nat.ne_of_lt hi) _ _
      rw [update_self, hlow, Multiset.cons_swap]
    · have hlt : t < n := by omega
      rw [update_of_ne (Ne.symm htn), Multiset.cons_swap, ih hlt, Multiset.cons_swap]

theorem contents_root : contents f (n + 1) = f 0 ::ₘ contents (fun i => f (i + 1)) n := by
  induction n with
  | zero => rfl
  | succ n ih => rw [contents_succ, ih, contents_succ, Multiset.cons_swap]

/-- Taking the root out and moving the last node into its place. -/
theorem contents_pop (hn : 0 < n) :
    contents f (n + 1) = f 0 ::ₘ contents (update f 0 (f n)) n := by
  rw [contents_update hn, contents_succ]

/-! ### Filling a hole -/

/-- Moving the node of cell `b` into the hole `a` and filling `b` is a swap of the filled store. -/
theorem update_update_eq_swap {x : α} {a b : Nat} (hab : a ≠ b) :
    update (update f a (f b)) b x = update f a x ∘ Equiv.swap a b := by
  funext i
  simp only [comp_apply]
  by_cases hib : i = b
  · subst hib; simp
  · by_cases hia : i = a
    · subst hia; simp [hab, Ne.symm hab]
    · rw [Equiv.swap_apply_of_ne_of_ne hia hib]; simp [hia, hib]

/-! ### Sifting up -/

/-- The store is in order except possibly between cell `t` and the cell above it. -/
structure UpHole (key : α → κ) (f : Nat → α) (n t : Nat) : Prop where
  lt : t < n
  off : ∀ i, 0 < i → i < n → i ≠ t → key (f (parent i)) ≤ key (f i)
  grand : 0 < t → ∀ i, 0 < i → i < n → parent i = t → key (f (parent t)) ≤ key (f i)

theorem Ordered.upHole (h : Ordered key f n) : UpHole key f (n + 1) n where
  lt := Nat.lt_succ_self n
  off i hi hin hne := h i hi (by omega)
  grand _ i hi hin hp := by have := parent_lt hi; omega

theorem UpHole.congr (h : UpHole key f n t) (hfg : ∀ i, i < n → g i = f i) : UpHole key g n t where
  lt := h.lt
  off i hi hin hne := by
    rw [hfg i hin, hfg _ (Nat.lt_trans (parent_lt hi) hin)]
    exact h.off i hi hin hne
  grand ht i hi hin hp := by
    rw [hfg i hin, hfg _ (Nat.lt_trans (parent_lt ht) h.lt)]
    exact h.grand ht i hi hin hp

theorem UpHole.ordered (h : UpHole key f n t) (hstop : 0 < t → key (f (parent t)) ≤ key (f t)) :
    Ordered key f n := by
  intro i hi hin
  by_cases hit : i = t
  · subst hit; exact hstop hi
  · exact h.off i hi hin hit

/-- One step up: the node in the hole trades places with the node above it, which is no better. -/
theorem UpHole.swap (h : UpHole key f n t) (ht : 0 < t) (hle : key (f t) ≤ key (f (parent t))) :
    UpHole key (f ∘ Equiv.swap t (parent t)) n (parent t) := by
  have hpt := parent_lt ht
  have hne : t ≠ parent t := Nat.ne_of_gt hpt
  have ht' : (f ∘ Equiv.swap t (parent t)) t = f (parent t) := by simp
  have hp' : (f ∘ Equiv.swap t (parent t)) (parent t) = f t := by simp
  have ho' : ∀ i, i ≠ t → i ≠ parent t → (f ∘ Equiv.swap t (parent t)) i = f i :=
    fun i h1 h2 => by simp [Equiv.swap_apply_of_ne_of_ne h1 h2]
  refine ⟨Nat.lt_trans hpt h.lt, ?_, ?_⟩
  · intro i hi hin hip
    by_cases hit : i = t
    · subst hit; rw [ht', hp']; exact hle
    rw [ho' i hit hip]
    by_cases h1 : parent i = t
    · rw [h1, ht']; exact h.grand ht i hi hin h1
    by_cases h2 : parent i = parent t
    · rw [h2, hp']
      exact le_trans hle (h2 ▸ h.off i hi hin hit)
    · rw [ho' _ h1 h2]; exact h.off i hi hin hit
  · intro hp0 i hi hin hpi
    have hpp := parent_lt hp0
    have hgp : key (f (parent (parent t))) ≤ key (f (parent t)) :=
      h.off (parent t) hp0 (Nat.lt_trans hpt h.lt) (Ne.symm hne)
    rw [ho' _ (by omega) (by omega)]
    by_cases hit : i = t
    · subst hit; rw [ht']; exact hgp
    · have hi' := parent_lt hi
      rw [ho' i hit (by omega)]
      exact le_trans hgp (hpi ▸ h.off i hi hin hit)

/-! ### Sifting down -/

/-- The store is in order except possibly between cell `t` and the cells below it. -/
structure DownHole (key : α → κ) (f : Nat → α) (n t : Nat) : Prop where
  off : ∀ i, 0 < i → i < n → parent i ≠ t → key (f (parent i)) ≤ key (f i)
  grand : 0 < t → ∀ i, 0 < i → i < n → parent i = t → key (f (parent t)) ≤ key (f i)

theorem Ordered.downHole {m : Nat} {x : α} (h : Ordered key f m) (hnm : n ≤ m) :
    DownHole key (update f 0 x) n 0 where
  off i hi hin hp := by
    rw [update_of_ne (Nat.ne_of_gt hi), update_of_ne hp]
    exact h i hi (Nat.lt_of_lt_of_le hin hnm)
  grand h0 := absurd h0 (Nat.lt_irrefl 0)

theorem DownHole.ordered (h : DownHole key f n t)
    (hstop : ∀ c, 0 < c → c < n → parent c = t → key (f t) ≤ key (f c)) : Ordered key f n := by
  intro i hi hin
  by_cases hp : parent i = t
  · rw [hp]; exact hstop i hi hin hp
  · exact h.off i hi hin hp

/-- One step down: the node in the hole trades places with the best child `c` of the hole, which is no
worse. -/
theorem DownHole.swap {c : Nat} (h : DownHole key f n t) (hc : 0 < c) (hcn : c < n)
    (hp : parent c = t) (hle : key (f c) ≤ key (f t))
    (hbest : ∀ i, 0 < i → i < n → parent i = t → key (f c) ≤ key (f i)) :
    DownHole key (f ∘ Equiv.swap t c) n c := by
  have htc : t < c := hp ▸ parent_lt hc
  have ht' : (f ∘ Equiv.swap t c) t = f c := by simp
  have hc' : (f ∘ Equiv.swap t c) c = f t := by simp
  have ho' : ∀ i, i ≠ t → i ≠ c → (f ∘ Equiv.swap t c) i = f i :=
    fun i h1 h2 => by simp [Equiv.swap_apply_of_ne_of_ne h1 h2]
  refine ⟨?_, ?_⟩
  · intro i hi hin hpc
    by_cases hit : i = t
    · subst hit
      have hpi := parent_lt hi
      rw [ht', ho' _ (by omega) (by omega)]
      exact h.grand hi c hc hcn hp
    by_cases hpt : parent i = t
    · rw [hpt, ht']
      by_cases hic : i = c
      · subst hic; rw [hc']; exact hle
      · rw [ho' i hit hic]; exact hbest i hi hin hpt
    · have hic : i ≠ c := by rintro rfl; exact hpt hp
      rw [ho' i hit hic, ho' _ hpt hpc]
      exact h.off i hi hin hpt
  · intro _ i hi hin hpi
    have hci := parent_lt hi
    rw [hp, ht', ho' i (by omega) (by omega)]
    have := h.off i hi hin (by omega)
    rwa [hpi] at this

end BinHeap
