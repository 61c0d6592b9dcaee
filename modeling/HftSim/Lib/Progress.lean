import Mathlib.Data.Fintype.Order
import Mathlib.Order.WellFounded

/-!
# Progress along a run

A run goes on for ever, and `Q u` says that something holds at time `u`. It is reached if a rank goes down at
every step until then (`Eventually.of_rank`), or at some step again and again (`Eventually.of_fair`): the ranks
are a relation between times and the elements of a well-founded order, so that a rank may be known only up to a
choice. Several things that stay once they are reached are reached together (`Eventually.all_or`).
-/

namespace Progress

variable {α ι : Type*} {P Q B : Nat → Prop} {t : Nat}

/-- At some time from `t` on, `Q` holds. -/
def Eventually (t : Nat) (Q : Nat → Prop) : Prop := ∃ u, t ≤ u ∧ Q u

theorem Eventually.now (h : Q t) : Eventually t Q := ⟨t, Nat.le_refl t, h⟩

theorem Eventually.mono (h : Eventually t P) (hPQ : ∀ u, t ≤ u → P u → Q u) : Eventually t Q := by
  obtain ⟨u, hu, hP⟩ := h
  exact ⟨u, hu, hPQ u hu hP⟩

theorem Eventually.trans (h : Eventually t P) (hPQ : ∀ u, t ≤ u → P u → Eventually u Q) : Eventually t Q := by
  obtain ⟨u, hu, hP⟩ := h
  obtain ⟨v, hv, hQ⟩ := hPQ u hu hP
  exact ⟨v, Nat.le_trans hu hv, hQ⟩

/-- What goes down at every step before `Q` cannot go on for ever. -/
theorem Eventually.of_rank {r : α → α → Prop} (hr : WellFounded r) {R : Nat → α → Prop} {a : α}
    (hstep : ∀ u, t ≤ u → ∀ a, R u a → Q u ∨ ∃ b, r b a ∧ R (u + 1) b) (h0 : R t a) : Eventually t Q := by
  induction a using hr.induction generalizing t with
  | _ a ih =>
    rcases hstep t (Nat.le_refl t) a h0 with hQ | ⟨b, hb, hR⟩
    · exact .now hQ
    · obtain ⟨u, hu, hQ⟩ := ih b hb (fun u hu => hstep u (by omega)) hR
      exact ⟨u, by omega, hQ⟩

/-- A rank that never goes up, and goes down whenever `g` comes: it comes again and again. -/
theorem Eventually.of_fair {g : Nat → Prop} (hfair : ∀ u, Eventually u g) {r : α → α → Prop} (hr : WellFounded r)
    {R : Nat → α → Prop} {a : α}
    (hstep : ∀ u, t ≤ u → ∀ a, R u a → Q u ∨ ∃ b, (r b a ∨ b = a ∧ ¬ g u) ∧ R (u + 1) b) (h0 : R t a) :
    Eventually t Q := by
  have hwait : ∀ u, ∃ n, g (u + n) := fun u => by
    obtain ⟨v, hv, hg⟩ := hfair u
    exact ⟨v - u, by rwa [Nat.add_sub_cancel' hv]⟩
  obtain ⟨n, hn⟩ := hwait t
  -- the rank, and then the time until `g`
  refine Eventually.of_rank (hr.prod_lex (wellFounded_lt (α := Nat)))
    (R := fun u p => R u p.1 ∧ g (u + p.2)) (fun u hu p hp => ?_) (a := (a, n)) ⟨h0, hn⟩
  rcases hstep u hu p.1 hp.1 with hQ | ⟨b, hlt | ⟨hb, hno⟩, hR⟩
  · exact .inl hQ
  · obtain ⟨m, hm⟩ := hwait (u + 1)
    exact .inr ⟨(b, m), .left _ _ hlt, hR, hm⟩
  · obtain ⟨c, _ | m⟩ := p
    · exact absurd hp.2 hno
    · obtain rfl : b = c := hb
      refine .inr ⟨(b, m), .right _ (Nat.lt_succ_self m), hR, ?_⟩
      rw [Nat.succ_add_eq_add_succ]
      exact hp.2

theorem stays (hs : ∀ u, t ≤ u → P u → P (u + 1)) (h : P t) {u : Nat} (hu : t ≤ u) : P u := by
  induction u, hu using Nat.le_induction with
  | base => exact h
  | succ u hu ih => exact hs u hu ih

/-- Each of finitely many things is reached and stays, unless `B` comes first. -/
theorem Eventually.all_or [Finite ι] {Q : ι → Nat → Prop} (hs : ∀ i u, t ≤ u → Q i u → Q i (u + 1))
    (h : ∀ i, Eventually t fun u => Q i u ∨ B u) : Eventually t fun u => (∀ i, Q i u) ∨ B u := by
  by_cases hB : Eventually t B
  · exact hB.mono fun u _ hu => .inr hu
  have hQ : ∀ i, ∃ u, t ≤ u ∧ Q i u := by
    intro i
    obtain ⟨u, hu, hQ | hb⟩ := h i
    · exact ⟨u, hu, hQ⟩
    · exact absurd ⟨u, hu, hb⟩ hB
  choose f hle hf using hQ
  obtain ⟨m, hm⟩ := Finite.exists_le f
  refine ⟨max t m, Nat.le_max_left _ _, .inl fun i => ?_⟩
  exact stays (fun u hu => hs i u (Nat.le_trans (hle i) hu)) (hf i) (Nat.le_trans (hm i) (Nat.le_max_right _ _))

end Progress
