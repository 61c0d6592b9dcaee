import HftSim.Lib.FirstCome
import HftSim.Lib.PriceTime

/-!
# Priority by arrival

The stamps of a price-time book stand for the order of arrival. A trail says nothing about arrival; if
every order comes in with a stamp above those of the resting orders of its side and price
(`Ops.Younger`), the orders at one price trade in the order in which they came in: `Ops.InOrder` says
so with each traded pair labelled by its places in the list of orders. The book follows the rules of
`FirstCome`; what a trade leaves of an order is what it has not filled.
-/

namespace PriceTime

variable {α : Type*}

/-- The resting orders of the side and price of `x` have smaller stamps. -/
def Ops.Younger (ops : Ops α) (m : Bool → Multiset α) (x : α) : Prop :=
  ∀ y ∈ m (ops.isBid x), ops.price y = ops.price x → ops.stamp y < ops.stamp x

def Ops.traded (ops : Ops α) (q : Bool → Nat × α) : Nat := min (ops.amount (q true).2) (ops.amount (q false).2)

/-- What the pairs have traded of the order with label `i` of a side. -/
def Ops.filled (ops : Ops α) (qs : List (Bool → Nat × α)) (bid : Bool) (i : Nat) : Nat :=
  ((qs.filter fun q => (q bid).1 = i).map ops.traded).sum

/-- The pairs `qs` trade the orders `os` they are labelled with, what is left of them, and at every
price the earlier orders first: when an order trades, those of its side and price that came in before
it have been filled. -/
structure Ops.InOrder (ops : Ops α) (os : List α) (qs : List (Bool → Nat × α)) : Prop where
  own : ∀ t q, qs[t]? = some q → ∀ bid, ∃ x, os[(q bid).1]? = some x ∧ ops.isBid x = bid ∧
    ops.price (q bid).2 = ops.price x ∧ ops.stamp (q bid).2 = ops.stamp x ∧
    ops.amount (q bid).2 + ops.filled (qs.take t) bid (q bid).1 = ops.amount x
  first : ∀ t q, qs[t]? = some q → ∀ bid i x, i < (q bid).1 → os[i]? = some x → ops.isBid x = bid →
    ops.price x = ops.price (q bid).2 → ops.filled (qs.take t) bid i = ops.amount x

def unlabelled (qs : List (Bool → Nat × α)) : List (Bool → α) := qs.map fun q bid => (q bid).2

variable {ops : Ops α} {os : List α} {ps : List (Bool → α)} {m : Bool → Multiset α}
  {qs : List (Bool → Nat × α)} {q : Bool → Nat × α} {bid : Bool} {i : Nat}

theorem Ops.filled_snoc : ops.filled (qs ++ [q]) bid i =
    ops.filled qs bid i + if (q bid).1 = i then ops.traded q else 0 := by
  unfold Ops.filled
  rw [List.filter_append, List.map_append, List.sum_append]
  by_cases h : (q bid).1 = i <;> simp [h]

theorem Ops.traded_side (bid : Bool) :
    ops.traded q = min (ops.amount (q bid).2) (ops.amount (q !bid).2) := by
  cases bid
  · exact Nat.min_comm _ _
  · rfl

/-- A trade leaves of an order the amount it does not fill. -/
def Ops.Lawful.rules (law : ops.Lawful) : FirstCome.Rules α Nat where
  side := ops.isBid
  price := ops.price
  stamp := ops.stamp
  rest x y := if ops.amount x ≤ ops.amount y then none else some (ops.setAmount x (ops.amount x - ops.amount y))
  price_rest {x y z} h := by
    split at h
    · cases h
    · cases h; exact law.price_set _ _
  stamp_rest {x y z} h := by
    split at h
    · cases h
    · cases h; exact law.stamp_set _ _

theorem filled_of_remains (law : ops.Lawful) {x : α}
    (hown : ∀ t q, qs[t]? = some q → (q bid).1 = i → law.rules.remains x (qs.take t) bid i = some (q bid).2) :
    (law.rules.remains x qs bid i).elim 0 ops.amount + ops.filled qs bid i = ops.amount x := by
  induction qs using List.reverseRecOn with
  | nil => rfl
  | append_singleton qs q ih =>
    have hqs : ∀ t p, qs[t]? = some p → (p bid).1 = i → law.rules.remains x (qs.take t) bid i = some (p bid).2 := by
      intro t p hp hi
      have hlt := (List.getElem?_eq_some_iff.1 hp).1
      have := hown t p (by rw [List.getElem?_append_left hlt]; exact hp) hi
      rwa [List.take_append_of_le_length (Nat.le_of_lt hlt)] at this
    rw [FirstCome.Rules.remains_snoc, Ops.filled_snoc]
    by_cases hi : (q bid).1 = i
    · have hq := hown qs.length q (by simp) hi
      rw [List.take_left] at hq
      have hsum := ih hqs
      rw [hq] at hsum
      rw [if_pos hi, if_pos hi, hq, Ops.traded_side bid]
      change (Option.elim (if _ then _ else _) 0 ops.amount) + _ = _
      rw [Option.elim_some] at hsum
      split
      · rw [Option.elim_none]
        omega
      · rw [Option.elim_some, law.amount_set _ _ (Nat.sub_le _ _)]
        omega
    · rw [if_neg hi, if_neg hi, Nat.add_zero]
      exact ih hqs

/-- Served in turn, an order is filled before a later one trades. -/
theorem inOrder_of_inTurn (law : ops.Lawful) (h : law.rules.InTurn os qs) : ops.InOrder os qs := by
  have hown : ∀ t q, qs[t]? = some q → ∀ bid i x, os[i]? = some x → ops.isBid x = bid →
      (law.rules.remains x (qs.take t) bid i).elim 0 ops.amount + ops.filled (qs.take t) bid i = ops.amount x := by
    intro t q hq bid i x hx hb
    refine filled_of_remains law fun t' q' hq' hi => ?_
    have ht : t' < t := by
      have := (List.getElem?_eq_some_iff.1 hq').1
      rw [List.length_take] at this
      omega
    rw [List.getElem?_take_of_lt ht] at hq'
    obtain ⟨x', hx', -, hrem⟩ := h.own t' q' hq' bid
    rw [hi, hx] at hx'
    cases hx'
    rw [List.take_take, Nat.min_eq_left (Nat.le_of_lt ht), ← hi]
    exact hrem
  constructor
  · intro t q hq bid
    obtain ⟨x, hx, hb, hrem⟩ := h.own t q hq bid
    have hsum := hown t q hq bid _ x hx hb
    rw [hrem, Option.elim_some] at hsum
    obtain ⟨hp, hs⟩ := FirstCome.Rules.remains_eq hrem
    exact ⟨x, hx, hb, hp, hs, hsum⟩
  · intro t q hq bid i x hi hx hb hp
    have hsum := hown t q hq bid i x hx hb
    rw [h.first t q hq bid i x hi hx hb hp, Option.elim_none, Nat.zero_add] at hsum
    exact hsum

variable [DecidableEq α]

/-- If every order comes in younger than the resting ones of its price, the orders trade in the order of
their arrival. -/
theorem TrailIf.inOrder (law : ops.Lawful) (h : TrailIf ops ops.Younger os ps m) :
    ∃ qs, unlabelled qs = ps ∧ ops.InOrder os qs := by
  suffices ht : law.rules.Trail os ps m by
    obtain ⟨qs, hps, hin⟩ := ht.served
    exact ⟨qs, hps, inOrder_of_inTurn law hin⟩
  induction h with
  | nil => exact .nil
  | order _ _ hok ih => exact ih.arrive hok
  | @trade os ps m _ p hp ih =>
    have hafter : ops.after m p = fun bid => (law.rules.rest (p bid) (p !bid)).elim ((m bid).erase (p bid))
        (· ::ₘ (m bid).erase (p bid)) := by
      funext bid
      unfold Ops.after Ops.left
      change _ = Option.elim (if _ then _ else _) _ _
      split
      · simp
      · simp [← Multiset.singleton_add, add_comm]
    rw [hafter]
    refine ih.trade (fun bid => (Multiset.cons_erase (hp.best bid).1).symm) fun bid y hy hprice => ?_
    exact (ops.before_eq_false.1 ((hp.best bid).2 y hy)).2 hprice

end PriceTime
