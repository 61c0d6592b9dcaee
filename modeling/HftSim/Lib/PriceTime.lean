import Mathlib.Algebra.BigOperators.Group.Multiset.Basic
import Mathlib.Algebra.Order.BigOperators.Group.List
import Mathlib.Algebra.Order.Ring.Nat
import Mathlib.Data.List.Forall2
import Mathlib.Data.List.Induction

/-!
# A price-time order book

A book keeps the resting orders of each side in a list, oldest first. The best bid has the highest
price and the best ask the lowest, ties going to the smaller time stamp. While the best bid's price
reaches the best ask's, the two trade the smaller of their amounts; an order that is used up leaves
the book, the other one keeps its place with what remains.

The order type is arbitrary: `Ops` says what the book reads of an order and how it rewrites an
amount. On books whose lists are sorted by time stamp (`Book.Sorted`) the best order of a side is
determined by the multiset of its orders (`pick_eq`), and the stamps only matter through the places
of the orders (`Book.Alike`).
-/

namespace PriceTime

structure Ops (α : Type*) where
  isBid : α → Bool
  price : α → Nat
  amount : α → Nat
  stamp : α → Nat
  setAmount : α → Nat → α

/-- Rewriting an amount does that and nothing else, up to the amount the order has. -/
structure Ops.Lawful {α : Type*} (ops : Ops α) : Prop where
  isBid_set : ∀ x a, ops.isBid (ops.setAmount x a) = ops.isBid x
  price_set : ∀ x a, ops.price (ops.setAmount x a) = ops.price x
  stamp_set : ∀ x a, ops.stamp (ops.setAmount x a) = ops.stamp x
  amount_set : ∀ x a, a ≤ ops.amount x → ops.amount (ops.setAmount x a) = a

@[ext] structure Book (α : Type*) where
  bids : List α
  asks : List α

variable {α β : Type*}

/-! ### The best order of a side -/

/-- The first order that no later one beats, with the orders around it. -/
def pick (before : α → α → Bool) : List α → Option (List α × α × List α)
  | [] => none
  | x :: xs =>
    match pick before xs with
    | none => some ([], x, [])
    | some (pre, y, post) => if before y x then some (x :: pre, y, post) else some ([], x, xs)

section Pick

variable {before : α → α → Bool} {l pre post : List α} {x : α}

theorem pick_eq_none : pick before l = none ↔ l = [] := by
  cases l with
  | nil => simp [pick]
  | cons x xs => simp only [pick]; split <;> [skip; split] <;> simp

theorem pick_split (h : pick before l = some (pre, x, post)) : l = pre ++ x :: post := by
  induction l generalizing pre x post with
  | nil => cases h
  | cons z zs ih =>
    simp only [pick] at h
    split at h
    · rename_i hn
      cases h
      rw [pick_eq_none.1 hn]; rfl
    · rename_i pre' y post' hp
      split at h
      · cases h
        rw [ih hp]; rfl
      · cases h; rfl

theorem pick_best (hirr : ∀ x, before x x = false)
    (htr : ∀ x y z, before y x = false → before z y = false → before z x = false)
    (hcon : ∀ x y, before y x = true → before x y = false)
    (h : pick before l = some (pre, x, post)) : ∀ z ∈ l, before z x = false := by
  induction l generalizing pre x post with
  | nil => cases h
  | cons w ws ih =>
    simp only [pick] at h
    split at h
    · rename_i hn
      cases h
      rw [pick_eq_none.1 hn]
      intro z hz
      rw [List.mem_singleton.1 hz]; exact hirr _
    · rename_i pre' y post' hp
      split at h
      · rename_i hb
        cases h
        intro z hz
        rcases List.mem_cons.1 hz with rfl | hz
        · exact hcon _ _ hb
        · exact ih hp z hz
      · rename_i hb
        cases h
        intro z hz
        rcases List.mem_cons.1 hz with rfl | hz
        · exact hirr _
        · exact htr _ _ _ (Bool.eq_false_iff.2 hb) (ih hp z hz)

end Pick

/-- Price `p` is better than price `q` on the given side. -/
def beats (bid : Bool) (p q : Nat) : Bool := if bid then decide (q < p) else decide (p < q)

variable (ops : Ops α)

def Ops.before (bid : Bool) (x y : α) : Bool :=
  beats bid (ops.price x) (ops.price y) ||
    (ops.price x == ops.price y && decide (ops.stamp x < ops.stamp y))

theorem Ops.before_eq_false {bid : Bool} {x y : α} : ops.before bid x y = false ↔
    (if bid then ops.price x ≤ ops.price y else ops.price y ≤ ops.price x) ∧
      (ops.price x = ops.price y → ops.stamp y ≤ ops.stamp x) := by
  cases bid <;> simp [before, beats]

/-- The orders of a side have different stamps, the older ones the smaller. -/
def Ops.Aged (l : List α) : Prop := l.Pairwise fun x y => ops.stamp x < ops.stamp y

variable {ops} {bid : Bool} {l pre post : List α} {x : α}

theorem pick_le (h : pick (ops.before bid) l = some (pre, x, post)) :
    ∀ z ∈ l, ops.before bid z x = false := by
  refine pick_best (fun x => ?_) (fun x y z h1 h2 => ?_) (fun x y h1 => ?_) h
  · rw [ops.before_eq_false]; split <;> simp
  · rw [ops.before_eq_false] at h1 h2 ⊢; split at h1 <;> simp_all <;> omega
  · rw [ops.before_eq_false]
    cases bid <;> simp [Ops.before, beats] at h1 ⊢ <;> omega

/-- With different stamps, an order that nothing beats is the one picked. -/
theorem pick_eq (hl : ops.Aged l) (hx : x ∈ l) (hbest : ∀ z ∈ l, ops.before bid z x = false) :
    ∃ pre post, pick (ops.before bid) l = some (pre, x, post) := by
  cases hp : pick (ops.before bid) l with
  | none => rw [pick_eq_none.1 hp] at hx; cases hx
  | some r =>
    obtain ⟨pre, y, post⟩ := r
    have hy : y ∈ l := by rw [pick_split hp]; simp
    have h1 := (ops.before_eq_false).1 (pick_le hp x hx)
    have h2 := (ops.before_eq_false).1 (hbest y hy)
    have hprice : ops.price x = ops.price y := by cases bid <;> simp_all <;> omega
    have hstamp : ops.stamp x = ops.stamp y :=
      Nat.le_antisymm (h2.2 hprice.symm) (h1.2 hprice)
    have hxy : x = y := by
      by_contra hne
      obtain ⟨i, hi, rfl⟩ := List.getElem_of_mem hx
      obtain ⟨j, hj, rfl⟩ := List.getElem_of_mem hy
      rcases Nat.lt_trichotomy i j with h | rfl | h
      · have := List.pairwise_iff_getElem.1 hl i j hi hj h; omega
      · exact hne rfl
      · have := List.pairwise_iff_getElem.1 hl j i hj hi h; omega
    exact ⟨pre, post, by rw [hxy]⟩

/-! ### Trading -/

/-- What is left of an order of amount `a` after trading against amount `b`. -/
def Ops.left (ops : Ops α) (x : α) (b : Nat) : List α :=
  if ops.amount x ≤ b then [] else [ops.setAmount x (ops.amount x - b)]

/-- One trade: the record it leaves and the book after it, if the best orders cross. -/
def trade? (ops : Ops α) (b : Book α) : Option (α × Book α) :=
  match pick (ops.before true) b.bids, pick (ops.before false) b.asks with
  | some (bpre, x, bpost), some (apre, y, apost) =>
    if ops.price y ≤ ops.price x then
      some (ops.setAmount x (min (ops.amount x) (ops.amount y)),
        ⟨bpre ++ ops.left x (ops.amount y) ++ bpost, apre ++ ops.left y (ops.amount x) ++ apost⟩)
    else none
  | _, _ => none

/-- The trades a book allows, in order, and the book after them; at most `n` of them. -/
def settleUpTo (ops : Ops α) : Nat → Book α → List α × Book α
  | 0, b => ([], b)
  | n + 1, b =>
    match trade? ops b with
    | none => ([], b)
    | some (t, b') => (t :: (settleUpTo ops n b').1, (settleUpTo ops n b').2)

/-- All trades a book allows: each one uses up an order. -/
def settle (ops : Ops α) (b : Book α) : List α × Book α :=
  settleUpTo ops (b.bids.length + b.asks.length) b

def Book.insert (ops : Ops α) (b : Book α) (x : α) : Book α :=
  if ops.isBid x then { b with bids := b.bids ++ [x] } else { b with asks := b.asks ++ [x] }

/-- Insert an order and trade while the book is crossed. -/
def process (ops : Ops α) (b : Book α) (x : α) : List α × Book α := settle ops (b.insert ops x)

/-- The trades of a list of orders, in order, and the resting orders. -/
def runOrders (ops : Ops α) (os : List α) : List α × Book α :=
  os.foldl (fun r x => (r.1 ++ (process ops r.2 x).1, (process ops r.2 x).2)) ([], ⟨[], []⟩)

theorem runOrders_snoc (os : List α) (x : α) :
    runOrders ops (os ++ [x]) = ((runOrders ops os).1 ++ (process ops (runOrders ops os).2 x).1,
      (process ops (runOrders ops os).2 x).2) := by
  simp [runOrders, List.foldl_append]

theorem runOrders_first {os os' : List α} (h : os <+: os') : (runOrders ops os).1 <+: (runOrders ops os').1 := by
  obtain ⟨t, rfl⟩ := h
  induction t using List.reverseRecOn with
  | nil => rw [List.append_nil]
  | append_singleton t x ih =>
    rw [← List.append_assoc, runOrders_snoc]
    exact ih.trans (List.prefix_append _ _)

theorem length_left_le (ops : Ops α) (x : α) (b : Nat) : (ops.left x b).length ≤ 1 := by
  unfold Ops.left; split <;> simp

/-- What a trade does: both best orders give up the smaller amount. -/
theorem trade?_eq_some {b b' : Book α} {t : α} (h : trade? ops b = some (t, b')) :
    ∃ bpre x bpost apre y apost, pick (ops.before true) b.bids = some (bpre, x, bpost) ∧
      pick (ops.before false) b.asks = some (apre, y, apost) ∧ ops.price y ≤ ops.price x ∧
      t = ops.setAmount x (min (ops.amount x) (ops.amount y)) ∧
      b' = ⟨bpre ++ ops.left x (ops.amount y) ++ bpost, apre ++ ops.left y (ops.amount x) ++ apost⟩ := by
  unfold trade? at h
  split at h
  · rename_i bpre x bpost apre y apost hb ha
    split at h
    · rename_i hle
      cases h
      exact ⟨bpre, x, bpost, apre, y, apost, hb, ha, hle, rfl, rfl⟩
    · cases h
  · cases h

theorem trade?_length {b b' : Book α} {t : α} (h : trade? ops b = some (t, b')) :
    b'.bids.length + b'.asks.length < b.bids.length + b.asks.length := by
  obtain ⟨bpre, x, bpost, apre, y, apost, hb, ha, -, -, rfl⟩ := trade?_eq_some h
  have h1 := length_left_le ops x (ops.amount y)
  have h2 := length_left_le ops y (ops.amount x)
  rw [pick_split hb, pick_split ha]
  simp only [List.length_append, List.length_cons]
  by_cases hle : ops.amount x ≤ ops.amount y
  · have : (ops.left x (ops.amount y)).length = 0 := by simp [Ops.left, hle]
    omega
  · have : (ops.left y (ops.amount x)).length = 0 := by simp [Ops.left, Nat.le_of_not_le hle]
    omega

theorem settleUpTo_eq {n m : Nat} {b : Book α} (hn : b.bids.length + b.asks.length ≤ n)
    (hm : b.bids.length + b.asks.length ≤ m) : settleUpTo ops n b = settleUpTo ops m b := by
  induction n generalizing m b with
  | zero =>
    have : trade? ops b = none := by
      by_contra hne
      obtain ⟨⟨t, b'⟩, h⟩ := Option.ne_none_iff_exists'.1 hne
      have := trade?_length h; omega
    cases m with
    | zero => rfl
    | succ m => simp only [settleUpTo, this]
  | succ n ih =>
    cases ht : trade? ops b with
    | none => cases m <;> simp only [settleUpTo, ht]
    | some r =>
      obtain ⟨t, b'⟩ := r
      have hlen := trade?_length ht
      cases m with
      | zero => omega
      | succ m => simp only [settleUpTo, ht, ih (m := m) (b := b') (by omega) (by omega)]

theorem settle_of_none {b : Book α} (h : trade? ops b = none) : settle ops b = ([], b) := by
  unfold settle
  cases b.bids.length + b.asks.length <;> simp only [settleUpTo, h]

theorem settle_of_some {b b' : Book α} {t : α} (h : trade? ops b = some (t, b')) :
    settle ops b = (t :: (settle ops b').1, (settle ops b').2) := by
  have hlen := trade?_length h
  obtain ⟨n, hn⟩ : ∃ n, b.bids.length + b.asks.length = n + 1 := ⟨_, (Nat.sub_add_cancel (by omega)).symm⟩
  unfold settle
  rw [hn]
  simp only [settleUpTo, h]
  rw [settleUpTo_eq (n := n) (m := b'.bids.length + b'.asks.length) (by omega) (Nat.le_refl _)]

/-! ### What trading does not change -/

section Forall

variable {p : α → Prop} (hset : ∀ x a, p x → p (ops.setAmount x a))
include hset

theorem left_forall {c : Nat} (h : ∀ z ∈ pre ++ x :: post, p z) : ∀ z ∈ pre ++ ops.left x c ++ post, p z := by
  intro z hz
  simp only [List.mem_append] at hz
  rcases hz with (hz | hz) | hz
  · exact h z (by simp [hz])
  · unfold Ops.left at hz
    split at hz
    · cases hz
    · rw [List.mem_singleton.1 hz]; exact hset _ _ (h x (by simp))
  · exact h z (by simp [hz])

theorem settle_forall {b : Book α} (hb : ∀ z ∈ b.bids, p z) (ha : ∀ z ∈ b.asks, p z) :
    (∀ t ∈ (settle ops b).1, p t) ∧ (∀ z ∈ (settle ops b).2.bids, p z) ∧ ∀ z ∈ (settle ops b).2.asks, p z := by
  unfold settle
  generalize b.bids.length + b.asks.length = n
  induction n generalizing b with
  | zero => exact ⟨fun t ht => absurd ht List.not_mem_nil, hb, ha⟩
  | succ n ih =>
    simp only [settleUpTo]
    cases ht : trade? ops b with
    | none => exact ⟨fun t ht => absurd ht List.not_mem_nil, hb, ha⟩
    | some r =>
      obtain ⟨t, b'⟩ := r
      obtain ⟨bpre, x, bpost, apre, y, apost, hpb, hpa, -, rfl, rfl⟩ := trade?_eq_some ht
      have hx : p x := hb x (by rw [pick_split hpb]; simp)
      obtain ⟨h1, h2, h3⟩ := ih (b := ⟨_, _⟩) (left_forall hset (pick_split hpb ▸ hb))
        (left_forall hset (pick_split hpa ▸ ha))
      refine ⟨fun z hz => ?_, h2, h3⟩
      rcases List.mem_cons.1 hz with rfl | hz
      · exact hset _ _ hx
      · exact h1 z hz

/-- What holds of the orders and does not depend on amounts holds of the trades. -/
theorem runOrders_forall (os : List α) (h : ∀ x ∈ os, p x) :
    (∀ t ∈ (runOrders ops os).1, p t) ∧ (∀ z ∈ (runOrders ops os).2.bids, p z) ∧
      ∀ z ∈ (runOrders ops os).2.asks, p z := by
  induction os using List.reverseRecOn with
  | nil => refine ⟨?_, ?_, ?_⟩ <;> intro _ h <;> cases h
  | append_singleton os x ih =>
    obtain ⟨h1, h2, h3⟩ := ih fun y hy => h y (by simp [hy])
    have hins : (∀ z ∈ ((runOrders ops os).2.insert ops x).bids, p z) ∧
        ∀ z ∈ ((runOrders ops os).2.insert ops x).asks, p z := by
      have hx := h x (by simp)
      unfold Book.insert
      split
      · refine ⟨fun z hz => ?_, h3⟩
        rcases List.mem_append.1 hz with hz | hz
        · exact h2 z hz
        · rw [List.mem_singleton.1 hz]; exact hx
      · refine ⟨h2, fun z hz => ?_⟩
        rcases List.mem_append.1 hz with hz | hz
        · exact h3 z hz
        · rw [List.mem_singleton.1 hz]; exact hx
    obtain ⟨h4, h5, h6⟩ := settle_forall hset hins.1 hins.2
    rw [runOrders_snoc]
    refine ⟨fun t ht => ?_, h5, h6⟩
    rcases List.mem_append.1 ht with ht | ht
    · exact h1 t ht
    · exact h4 t ht

end Forall

/-! ### Stamps -/

/-- A book between two orders: each side is aged, and every stamp lies before time `s`. -/
structure Book.Fit (ops : Ops α) (s : Nat) (b : Book α) : Prop where
  bids : ops.Aged b.bids
  asks : ops.Aged b.asks
  bids_lt : ∀ x ∈ b.bids, ops.stamp x < s
  asks_lt : ∀ x ∈ b.asks, ops.stamp x < s

theorem Book.Fit.mono {s s' : Nat} {b : Book α} (h : b.Fit ops s) (hs : s ≤ s') : b.Fit ops s' :=
  ⟨h.bids, h.asks, fun x hx => Nat.lt_of_lt_of_le (h.bids_lt x hx) hs,
    fun x hx => Nat.lt_of_lt_of_le (h.asks_lt x hx) hs⟩

theorem Book.Fit.insert {s : Nat} {b : Book α} {x : α} (h : b.Fit ops (ops.stamp x))
    (hs : ops.stamp x < s) : (b.insert ops x).Fit ops s := by
  have hsnoc : ∀ {l : List α}, ops.Aged l → (∀ y ∈ l, ops.stamp y < ops.stamp x) →
      ops.Aged (l ++ [x]) ∧ ∀ y ∈ l ++ [x], ops.stamp y < s := by
    refine fun hl hlt => ⟨List.pairwise_append.2 ⟨hl, List.pairwise_singleton _ _, ?_⟩, ?_⟩
    · intro y hy z hz
      rw [List.mem_singleton.1 hz]; exact hlt y hy
    · intro y hy
      rcases List.mem_append.1 hy with hy | hy
      · exact Nat.lt_trans (hlt y hy) hs
      · rw [List.mem_singleton.1 hy]; exact hs
  unfold Book.insert
  split
  · have := hsnoc h.bids h.bids_lt
    exact ⟨this.1, h.asks, this.2, (h.mono (Nat.le_of_lt hs)).asks_lt⟩
  · have := hsnoc h.asks h.asks_lt
    exact ⟨h.bids, this.1, (h.mono (Nat.le_of_lt hs)).bids_lt, this.2⟩

section Lawful

variable (law : ops.Lawful)
include law

theorem mem_left {x z : α} {c : Nat} (h : z ∈ ops.left x c) :
    ops.stamp z = ops.stamp x ∧ ops.price z = ops.price x := by
  unfold Ops.left at h
  split at h
  · cases h
  · rw [List.mem_singleton.1 h]; exact ⟨law.stamp_set _ _, law.price_set _ _⟩

theorem aged_left {c : Nat} (h : ops.Aged (pre ++ x :: post)) :
    ops.Aged (pre ++ ops.left x c ++ post) := by
  obtain ⟨hpre, hx, hcross⟩ := List.pairwise_append.1 h
  obtain ⟨hxp, hpost⟩ := List.pairwise_cons.1 hx
  refine List.pairwise_append.2 ⟨List.pairwise_append.2 ⟨hpre, ?_, ?_⟩, hpost, ?_⟩
  · unfold Ops.left; split
    · exact List.Pairwise.nil
    · exact List.pairwise_singleton _ _
  · intro a ha z hz
    rw [(mem_left law hz).1]; exact hcross a ha x List.mem_cons_self
  · intro a ha z hz
    rcases List.mem_append.1 ha with ha | ha
    · exact hcross a ha z (List.mem_cons_of_mem _ hz)
    · rw [(mem_left law ha).1]; exact hxp z hz

theorem stamp_left_lt {s c : Nat} (h : ∀ z ∈ pre ++ x :: post, ops.stamp z < s) :
    ∀ z ∈ pre ++ ops.left x c ++ post, ops.stamp z < s := by
  intro z hz
  simp only [List.mem_append] at hz
  rcases hz with (hz | hz) | hz
  · exact h z (by simp [hz])
  · rw [(mem_left law hz).1]; exact h x (by simp)
  · exact h z (by simp [hz])

theorem Book.Fit.trade {s : Nat} {b b' : Book α} {t : α} (h : b.Fit ops s)
    (ht : trade? ops b = some (t, b')) : b'.Fit ops s := by
  obtain ⟨bpre, x, bpost, apre, y, apost, hb, ha, -, -, rfl⟩ := trade?_eq_some ht
  have hbids := pick_split hb
  have hasks := pick_split ha
  exact ⟨aged_left law (hbids ▸ h.bids), aged_left law (hasks ▸ h.asks),
    stamp_left_lt law (hbids ▸ h.bids_lt), stamp_left_lt law (hasks ▸ h.asks_lt)⟩

theorem Book.Fit.settle {s : Nat} {b : Book α} (h : b.Fit ops s) : (settle ops b).2.Fit ops s := by
  unfold PriceTime.settle
  generalize b.bids.length + b.asks.length = n
  induction n generalizing b with
  | zero => exact h
  | succ n ih =>
    simp only [settleUpTo]
    cases ht : trade? ops b with
    | none => exact h
    | some r => exact ih (h.trade law ht)

theorem runOrders_fit {os : List α} {s : Nat} (hos : ops.Aged os) (hs : ∀ x ∈ os, ops.stamp x < s) :
    (runOrders ops os).2.Fit ops s := by
  induction os using List.reverseRecOn generalizing s with
  | nil => refine ⟨.nil, .nil, ?_, ?_⟩ <;> intro _ h <;> cases h
  | append_singleton os x ih =>
    obtain ⟨hos, -, hlast⟩ := List.pairwise_append.1 hos
    rw [runOrders_snoc]
    refine Book.Fit.settle law (Book.Fit.insert ?_ (hs x (by simp)))
    exact ih hos fun y hy => hlast y hy x (by simp)

end Lawful

/-! ### Trails

A trail is a run of the book that does not say which of several best orders trades: the resting orders
of a side (`true` for bids) are a multiset, and a trade takes any bid and any ask that nothing beats.
It makes no assumption on the stamps; with aged ones it is `runOrders` (`TrailIf.runOrders`). -/

/-- Nothing beats `x`. -/
def Ops.Best (ops : Ops α) (bid : Bool) (m : Multiset α) (x : α) : Prop :=
  x ∈ m ∧ ∀ z ∈ m, ops.before bid z x = false

/-- The record of a trade of the bid `p true` with the ask `p false`. -/
def Ops.deal (ops : Ops α) (p : Bool → α) : α :=
  ops.setAmount (p true) (min (ops.amount (p true)) (ops.amount (p false)))

/-- The pair `p` can trade. -/
structure Ops.Match (ops : Ops α) (m : Bool → Multiset α) (p : Bool → α) : Prop where
  best : ∀ bid, ops.Best bid (m bid) (p bid)
  cross : ops.price (p false) ≤ ops.price (p true)

def Book.sides (b : Book α) (bid : Bool) : Multiset α := if bid then ↑b.bids else ↑b.asks

/-- What the sides hold with `x` inserted. -/
def Ops.put (ops : Ops α) (m : Bool → Multiset α) (x : α) (bid : Bool) : Multiset α :=
  if ops.isBid x = bid then x ::ₘ m bid else m bid

theorem sides_insert (b : Book α) (x : α) : (b.insert ops x).sides = ops.put b.sides x := by
  funext bid
  unfold Book.insert Ops.put Book.sides
  cases hx : ops.isBid x <;> cases bid <;> simp

theorem trade?_of_no_match {b : Book α} (hno : ∀ p, ¬ ops.Match b.sides p) : trade? ops b = none := by
  by_contra hne
  obtain ⟨⟨t, b'⟩, ht⟩ := Option.ne_none_iff_exists'.1 hne
  obtain ⟨bpre, x, bpost, apre, y, apost, hb, ha, hle, -, -⟩ := trade?_eq_some ht
  refine hno (fun bid => if bid then x else y) ⟨fun bid => ?_, hle⟩
  cases bid
  · refine ⟨?_, fun z hz => pick_le ha z (Multiset.mem_coe.1 hz)⟩
    show y ∈ (↑b.asks : Multiset α)
    rw [pick_split ha]; simp
  · refine ⟨?_, fun z hz => pick_le hb z (Multiset.mem_coe.1 hz)⟩
    show x ∈ (↑b.bids : Multiset α)
    rw [pick_split hb]; simp

theorem exists_best (ops : Ops α) {m : Multiset α} {x : α} (bid : Bool) (hx : x ∈ m) :
    ∃ y, ops.Best bid m y := by
  induction m using Quotient.inductionOn with
  | _ l =>
    cases hp : pick (ops.before bid) l with
    | none => rw [pick_eq_none.1 hp] at hx; cases hx
    | some r =>
      obtain ⟨pre, y, post⟩ := r
      refine ⟨y, ?_, fun z hz => pick_le hp z (Multiset.mem_coe.1 hz)⟩
      rw [pick_split hp]; simp

theorem lt_of_no_match {m : Bool → Multiset α} (hno : ∀ p, ¬ ops.Match m p) {x y : α} (hx : x ∈ m true)
    (hy : y ∈ m false) : ops.price x < ops.price y := by
  obtain ⟨x', hx'⟩ := exists_best ops true hx
  obtain ⟨y', hy'⟩ := exists_best ops false hy
  have hxx := ((ops.before_eq_false).1 (hx'.2 x hx)).1
  have hyy := ((ops.before_eq_false).1 (hy'.2 y hy)).1
  simp only [if_true, Bool.false_eq_true, if_false] at hxx hyy
  by_contra hle
  refine hno (fun bid => if bid then x' else y') ⟨fun bid => ?_, ?_⟩
  · cases bid <;> [exact hy'; exact hx']
  · simp only [if_true, Bool.false_eq_true, if_false]; omega

/-- The shares in a multiset of orders. -/
def Ops.shares (ops : Ops α) (m : Multiset α) : Nat := (m.map ops.amount).sum

theorem Ops.shares_cons (x : α) (m : Multiset α) : ops.shares (x ::ₘ m) = ops.amount x + ops.shares m := by
  simp [Ops.shares]

theorem Ops.shares_append (l l' : List α) :
    ops.shares (↑(l ++ l') : Multiset α) = ops.shares ↑l + ops.shares ↑l' := by
  simp [Ops.shares]

theorem Ops.shares_singleton (x : α) : ops.shares (↑[x] : Multiset α) = ops.amount x := by
  simp [Ops.shares]

section Trail

variable [DecidableEq α]

/-- What the sides hold after the trade of `p`. -/
def Ops.after (ops : Ops α) (m : Bool → Multiset α) (p : Bool → α) (bid : Bool) : Multiset α :=
  (m bid).erase (p bid) + ↑(ops.left (p bid) (ops.amount (p !bid)))

/-- The orders so far, the pairs that have traded, and what rests. An order comes in when nothing can
trade, and if `ok` allows it beside what rests. -/
inductive TrailIf (ops : Ops α) (ok : (Bool → Multiset α) → α → Prop) :
    List α → List (Bool → α) → (Bool → Multiset α) → Prop
  | nil : TrailIf ops ok [] [] fun _ => 0
  | order {os ps m} (h : TrailIf ops ok os ps m) (hno : ∀ p, ¬ ops.Match m p) {x : α} (hok : ok m x) :
      TrailIf ops ok (os ++ [x]) ps (ops.put m x)
  | trade {os ps m} (h : TrailIf ops ok os ps m) {p : Bool → α} (hp : ops.Match m p) :
      TrailIf ops ok os (ps ++ [p]) (ops.after m p)

abbrev Trail (ops : Ops α) : List α → List (Bool → α) → (Bool → Multiset α) → Prop :=
  TrailIf ops fun _ _ => True

variable {b : Book α} {p : Bool → α} {os : List α} {ps : List (Bool → α)} {m : Bool → Multiset α}
  {ok : (Bool → Multiset α) → α → Prop}

theorem TrailIf.trail (h : TrailIf ops ok os ps m) : Trail ops os ps m := by
  induction h with
  | nil => exact .nil
  | order _ hno _ ih => exact ih.order hno trivial
  | trade _ hp ih => exact ih.trade hp

theorem coe_erase_middle (pre post : List α) (x : α) :
    (↑(pre ++ x :: post) : Multiset α).erase x = ↑(pre ++ post) := by
  rw [Multiset.coe_eq_coe.2 List.perm_middle, ← Multiset.cons_coe, Multiset.erase_cons_head]

theorem erase_add_left (c : Nat) : (↑(pre ++ x :: post) : Multiset α).erase x + ↑(ops.left x c) =
    ↑(pre ++ ops.left x c ++ post) := by
  rw [coe_erase_middle, Multiset.coe_add, Multiset.coe_eq_coe, List.append_assoc, List.append_assoc]
  exact List.Perm.append_left pre List.perm_append_comm

/-- On aged sides the trade of a matching pair is the book's. -/
theorem trade?_of_match {s : Nat} (hb : b.Fit ops s) (hp : ops.Match b.sides p) :
    ∃ b', trade? ops b = some (ops.deal p, b') ∧ b'.sides = ops.after b.sides p := by
  have hbest := hp.best true
  have hbest' := hp.best false
  simp only [Book.sides, if_true, Bool.false_eq_true, if_false] at hbest hbest'
  obtain ⟨bpre, bpost, hbp⟩ := pick_eq hb.bids (Multiset.mem_coe.1 hbest.1) fun z hz => hbest.2 z hz
  obtain ⟨apre, apost, hap⟩ := pick_eq hb.asks (Multiset.mem_coe.1 hbest'.1) fun z hz => hbest'.2 z hz
  refine ⟨⟨bpre ++ ops.left (p true) (ops.amount (p false)) ++ bpost,
    apre ++ ops.left (p false) (ops.amount (p true)) ++ apost⟩, ?_, ?_⟩
  · simp only [trade?, hbp, hap, if_pos hp.cross, Ops.deal]
  have h1 := pick_split hbp
  have h2 := pick_split hap
  funext bid
  cases bid
  · simp only [Book.sides, Ops.after, Bool.false_eq_true, if_false, Bool.not_false]
    rw [h2, erase_add_left]
  · simp only [Book.sides, Ops.after, if_true, Bool.not_true]
    rw [h1, erase_add_left]

/-- With aged orders a trail is the run of the book, up to the trades the book still owes. -/
theorem TrailIf.runOrders (law : ops.Lawful) (h : TrailIf ops ok os ps m) (hos : ops.Aged os) :
    ∃ b : Book α, b.sides = m ∧ (∀ s, (∀ x ∈ os, ops.stamp x < s) → b.Fit ops s) ∧
      PriceTime.runOrders ops os = (ps.map ops.deal ++ (settle ops b).1, (settle ops b).2) := by
  induction h with
  | nil =>
    refine ⟨⟨[], []⟩, ?_, fun s _ => ⟨.nil, .nil, ?_, ?_⟩, rfl⟩
    · funext bid; cases bid <;> rfl
    · intro x hx; cases hx
    · intro x hx; cases hx
  | @order os ps m h hno x _ ih =>
    obtain ⟨hos, -, hlast⟩ := List.pairwise_append.1 hos
    obtain ⟨b, rfl, hfit, hrun⟩ := ih hos
    rw [settle_of_none (trade?_of_no_match hno), List.append_nil] at hrun
    refine ⟨b.insert ops x, sides_insert b x, fun s hs => ?_, ?_⟩
    · exact (hfit _ fun y hy => hlast y hy x (by simp)).insert (hs x (by simp))
    · rw [runOrders_snoc, hrun]; rfl
  | @trade os ps m h p hp ih =>
    obtain ⟨b, rfl, hfit, hrun⟩ := ih hos
    obtain ⟨s, hs⟩ : ∃ s, ∀ x ∈ os, ops.stamp x < s :=
      ⟨(os.map ops.stamp).sum + 1, fun x hx =>
        Nat.lt_succ_of_le (List.single_le_sum (fun _ _ => Nat.zero_le _) _ (List.mem_map_of_mem hx))⟩
    obtain ⟨b', ht, hb'⟩ := trade?_of_match (hfit s hs) hp
    refine ⟨b', hb', fun s hs => (hfit s hs).trade law ht, ?_⟩
    rw [hrun, settle_of_some ht, List.map_append, List.append_assoc]
    rfl

theorem shares_after (law : ops.Lawful) (hp : ops.Match m p) (bid : Bool) :
    ops.shares (m bid) = ops.amount (ops.deal p) + ops.shares (ops.after m p bid) := by
  have hdeal : ops.amount (ops.deal p) = min (ops.amount (p true)) (ops.amount (p false)) :=
    law.amount_set _ _ (Nat.min_le_left _ _)
  have hleft : ops.shares (↑(ops.left (p bid) (ops.amount (p !bid))) : Multiset α) =
      ops.amount (p bid) - ops.amount (p !bid) := by
    unfold Ops.left
    split
    · rw [Nat.sub_eq_zero_of_le ‹_›]; rfl
    · simp [Ops.shares, law.amount_set]
  have hsum : ops.shares (ops.after m p bid) =
      ops.shares ((m bid).erase (p bid)) + (ops.amount (p bid) - ops.amount (p !bid)) := by
    rw [← hleft]; simp [Ops.after, Ops.shares]
  have herase : ops.shares (m bid) = ops.amount (p bid) + ops.shares ((m bid).erase (p bid)) := by
    rw [← Ops.shares_cons, Multiset.cons_erase (hp.best bid).1]
  rw [hsum, herase, hdeal]
  cases bid <;> simp only [Bool.not_false, Bool.not_true] <;> omega

/-- Shares are conserved: those of the orders of a side have traded or rest. -/
theorem TrailIf.shares (law : ops.Lawful) (h : TrailIf ops ok os ps m) (bid : Bool) :
    ops.shares ↑(os.filter fun x => ops.isBid x = bid) =
      ops.shares ↑(ps.map ops.deal) + ops.shares (m bid) := by
  induction h with
  | nil => rfl
  | @order os ps m h _ x _ ih =>
    rw [List.filter_append]
    unfold Ops.put
    by_cases hx : ops.isBid x = bid
    · rw [if_pos hx, Ops.shares_cons, List.filter_singleton, decide_eq_true hx, cond_true, Ops.shares_append,
        Ops.shares_singleton, ih]
      omega
    · rw [if_neg hx]
      simpa [hx] using ih
  | @trade os ps m h p hp ih =>
    have := shares_after law hp bid
    rw [ih, this, List.map_append, List.map_singleton, Ops.shares_append, Ops.shares_singleton]
    omega

theorem TrailIf.stamp_mem (law : ops.Lawful) (h : TrailIf ops ok os ps m) {bid : Bool} {y : α} (hy : y ∈ m bid) :
    ∃ x ∈ os, ops.stamp y = ops.stamp x := by
  induction h generalizing bid y with
  | nil => cases hy
  | @order os ps m _ _ x _ ih =>
    have hold : y ∈ m bid → ∃ z ∈ os ++ [x], ops.stamp y = ops.stamp z := fun hy =>
      (ih hy).imp fun z hz => ⟨List.mem_append_left _ hz.1, hz.2⟩
    unfold Ops.put at hy
    split at hy
    · rcases Multiset.mem_cons.1 hy with rfl | hy
      · exact ⟨y, by simp, rfl⟩
      · exact hold hy
    · exact hold hy
  | @trade os ps m _ p hp ih =>
    rcases Multiset.mem_add.1 hy with hy | hy
    · exact ih (Multiset.mem_of_mem_erase hy)
    · rw [(mem_left law (Multiset.mem_coe.1 hy)).1]
      exact ih (hp.best bid).1

theorem TrailIf.cross (h : TrailIf ops ok os ps m) : ∀ p ∈ ps, ops.price (p false) ≤ ops.price (p true) := by
  induction h with
  | nil => intro p hp; cases hp
  | order _ _ _ ih => exact ih
  | trade _ hp ih =>
    intro q hq
    rcases List.mem_append.1 hq with hq | hq
    · exact ih q hq
    · rw [List.mem_singleton.1 hq]; exact hp.cross

end Trail

/-! ### Books that differ in their stamps -/

section Alike

variable {ops' : Ops β}

/-- Two orders with the same price and amount. -/
def Similar (ops : Ops α) (ops' : Ops β) (x : α) (y : β) : Prop :=
  ops.price x = ops'.price y ∧ ops.amount x = ops'.amount y

structure Book.Alike (ops : Ops α) (ops' : Ops β) (b : Book α) (c : Book β) : Prop where
  bids : List.Forall₂ (Similar ops ops') b.bids c.bids
  asks : List.Forall₂ (Similar ops ops') b.asks c.asks

def SimilarSplit (ops : Ops α) (ops' : Ops β) (r : List α × α × List α) (r' : List β × β × List β) :
    Prop :=
  List.Forall₂ (Similar ops ops') r.1 r'.1 ∧ Similar ops ops' r.2.1 r'.2.1 ∧
    List.Forall₂ (Similar ops ops') r.2.2 r'.2.2

/-- On aged sides, similar orders are picked from the same place: between two orders of a side the
earlier one always wins a tie. -/
theorem pick_similar (bid : Bool) {l' : List β} (h : List.Forall₂ (Similar ops ops') l l') (hl : ops.Aged l)
    (hl' : ops'.Aged l') :
    Option.Rel (SimilarSplit ops ops') (pick (ops.before bid) l) (pick (ops'.before bid) l') := by
  induction h with
  | nil => exact .none
  | @cons x y xs ys hxy hrest ih =>
    obtain ⟨hx, hxs⟩ := List.pairwise_cons.1 hl
    obtain ⟨hy, hys⟩ := List.pairwise_cons.1 hl'
    have ih := ih hxs hys
    simp only [pick]
    cases hp : pick (ops.before bid) xs with
    | none =>
      rw [hp] at ih
      cases hp' : pick (ops'.before bid) ys with
      | some r => rw [hp'] at ih; cases ih
      | none => exact .some ⟨.nil, hxy, .nil⟩
    | some r =>
      rw [hp] at ih
      cases hp' : pick (ops'.before bid) ys with
      | none => rw [hp'] at ih; cases ih
      | some r' =>
        rw [hp'] at ih
        obtain ⟨pre, z, post⟩ := r
        obtain ⟨pre', w, post'⟩ := r'
        obtain ⟨hpre, hzw, hpost⟩ : SimilarSplit ops ops' (pre, z, post) (pre', w, post') := by
          cases ih; assumption
        have hz := hx z (by rw [pick_split hp]; simp)
        have hw := hy w (by rw [pick_split hp']; simp)
        have hsame : ops.before bid z x = ops'.before bid w y := by
          simp only [Ops.before, hxy.1, hzw.1, Nat.lt_asymm hz, Nat.lt_asymm hw]
        simp only [hsame]
        split
        · exact .some ⟨.cons hxy hpre, hzw, hpost⟩
        · exact .some ⟨.nil, hxy, hrest⟩

theorem insert_alike {b : Book α} {c : Book β} {y : β} (h : b.Alike ops ops' c)
    (hxy : Similar ops ops' x y) (hside : ops.isBid x = ops'.isBid y) :
    (b.insert ops x).Alike ops ops' (c.insert ops' y) := by
  unfold Book.insert
  rw [hside]
  split
  · exact ⟨List.rel_append h.bids (.cons hxy .nil), h.asks⟩
  · exact ⟨h.bids, List.rel_append h.asks (.cons hxy .nil)⟩

variable (law : ops.Lawful) (law' : ops'.Lawful)
include law law'

theorem left_similar {y : β} {c : Nat} (h : Similar ops ops' x y) :
    List.Forall₂ (Similar ops ops') (ops.left x c) (ops'.left y c) := by
  unfold Ops.left
  rw [h.2]
  split
  · exact .nil
  · refine .cons ⟨?_, ?_⟩ .nil
    · rw [law.price_set, law'.price_set, h.1]
    · rw [law.amount_set _ _ (by rw [h.2]; omega), law'.amount_set _ _ (by omega)]

theorem trade?_alike {b : Book α} {c : Book β} {s s' : Nat} (h : b.Alike ops ops' c)
    (hb : b.Fit ops s) (hc : c.Fit ops' s') :
    Option.Rel (fun r r' => Similar ops ops' r.1 r'.1 ∧ r.2.Alike ops ops' r'.2) (trade? ops b)
      (trade? ops' c) := by
  have hbids := pick_similar true h.bids hb.bids hc.bids
  have hasks := pick_similar false h.asks hb.asks hc.asks
  unfold trade?
  generalize pick (ops.before true) b.bids = pb, pick (ops'.before true) c.bids = pc,
    pick (ops.before false) b.asks = qb, pick (ops'.before false) c.asks = qc at hbids hasks
  cases hbids with
  | none => exact .none
  | some hx =>
    cases hasks with
    | none => exact .none
    | some hy =>
      rename_i r r' q q'
      obtain ⟨bpre, x, bpost⟩ := r
      obtain ⟨bpre', x', bpost'⟩ := r'
      obtain ⟨apre, y, apost⟩ := q
      obtain ⟨apre', y', apost'⟩ := q'
      obtain ⟨h1, h2, h3⟩ := hx
      obtain ⟨h4, h5, h6⟩ := hy
      simp only at h1 h2 h3 h4 h5 h6 ⊢
      simp only [h2.1, h5.1, h2.2, h5.2]
      split
      · refine .some ⟨⟨?_, ?_⟩, ⟨?_, ?_⟩⟩
        · rw [law.price_set, law'.price_set, h2.1]
        · rw [law.amount_set _ _ (by rw [h2.2]; omega), law'.amount_set _ _ (by omega)]
        · exact List.rel_append (List.rel_append h1 (left_similar law law' h2)) h3
        · exact List.rel_append (List.rel_append h4 (left_similar law law' h5)) h6
      · exact .none

theorem settle_alike {b : Book α} {c : Book β} {s s' : Nat} (h : b.Alike ops ops' c)
    (hb : b.Fit ops s) (hc : c.Fit ops' s') :
    List.Forall₂ (Similar ops ops') (settle ops b).1 (settle ops' c).1 ∧
      (settle ops b).2.Alike ops ops' (settle ops' c).2 := by
  unfold settle
  rw [← h.bids.length_eq, ← h.asks.length_eq]
  generalize b.bids.length + b.asks.length = n
  induction n generalizing b c with
  | zero => exact ⟨.nil, h⟩
  | succ n ih =>
    have ht := trade?_alike law law' h hb hc
    simp only [settleUpTo]
    cases hbt : trade? ops b with
    | none =>
      rw [hbt] at ht
      cases hct : trade? ops' c with
      | none => exact ⟨.nil, h⟩
      | some r => rw [hct] at ht; cases ht
    | some r =>
      rw [hbt] at ht
      cases hct : trade? ops' c with
      | none => rw [hct] at ht; cases ht
      | some r' =>
        rw [hct] at ht
        obtain ⟨h1, h2⟩ : Similar ops ops' r.1 r'.1 ∧ r.2.Alike ops ops' r'.2 := by cases ht; assumption
        have := ih h2 (hb.trade law hbt) (hc.trade law' hct)
        exact ⟨.cons h1 this.1, this.2⟩

/-- The prices and amounts of the trades, and the resting orders, do not depend on the stamps. -/
theorem runOrders_alike {os : List α} {os' : List β}
    (h : List.Forall₂ (fun x y => Similar ops ops' x y ∧ ops.isBid x = ops'.isBid y) os os')
    (hos : ops.Aged os) (hos' : ops'.Aged os') :
    List.Forall₂ (Similar ops ops') (runOrders ops os).1 (runOrders ops' os').1 ∧
      (runOrders ops os).2.Alike ops ops' (runOrders ops' os').2 := by
  obtain ⟨ro, hro⟩ : ∃ ro, ro.reverse = os := ⟨os.reverse, List.reverse_reverse _⟩
  obtain ⟨ro', hro'⟩ : ∃ ro', ro'.reverse = os' := ⟨os'.reverse, List.reverse_reverse _⟩
  subst hro hro'
  rw [List.forall₂_reverse_iff] at h
  induction h with
  | nil => exact ⟨.nil, .nil, .nil⟩
  | @cons x y xs ys hxy _ ih =>
    rw [List.reverse_cons] at hos hos' ⊢
    rw [List.reverse_cons]
    obtain ⟨hos, -, hlast⟩ := List.pairwise_append.1 hos
    obtain ⟨hos', -, hlast'⟩ := List.pairwise_append.1 hos'
    obtain ⟨h1, h2⟩ := ih hos hos'
    have hfit := runOrders_fit law hos fun z hz => hlast z hz x (by simp)
    have hfit' := runOrders_fit law' hos' fun z hz => hlast' z hz y (by simp)
    have hset := settle_alike law law' (insert_alike h2 hxy.1 hxy.2)
      (hfit.insert (Nat.lt_succ_self _)) (hfit'.insert (Nat.lt_succ_self _))
    rw [runOrders_snoc, runOrders_snoc]
    exact ⟨List.rel_append h1 hset.1, hset.2⟩

end Alike

end PriceTime
