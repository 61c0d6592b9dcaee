import HftSim.Golden.Refines

/-!
# The simulator without memory (`sw_sim/no_memory_sim.c`)

`no_memory_sim` keeps the two heaps of one symbol and checks for a trade once after each order;
`memory_sim` checks until there is none. The heaps stay sorted by price whatever the timestamps are, so
one check is enough exactly when the order does not cross a second resting order with shares to spare
(`Heaps.CrossesTwice`).
-/

namespace HftSim.Golden

open Function BinHeap

structure Heaps where
  asks : Heap
  bids : Heap

namespace Heaps

/-- The two `create_heap` calls. -/
def create : Heaps := ⟨createHeap 10, createHeap 10⟩

def push (p : Heaps) (o : Order) : Heaps :=
  if o.type then { p with asks := p.asks.push minCmp o } else { p with bids := p.bids.push maxCmp o }

def side (p : Heaps) (ask : Bool) : Heap := if ask then p.asks else p.bids

end Heaps

/-- `check_for_trade`: the trade it reports when it returns 1, and the heaps after it. `nowBid` and
`nowAsk` are the clock readings of the pops. -/
def checkForTrade (nowBid nowAsk : Nat) (p : Heaps) : Option Trade × Heaps :=
  if p.asks.size = 0 ∨ p.bids.size = 0 then (none, p)
  else
    let bid := p.bids.peek
    let ask := p.asks.peek
    if ask.price ≤ bid.price then
      if bid.amount = ask.amount then
        (some ⟨bid.price, ask.amount⟩, ⟨(p.asks.pop minCmp nowAsk).1, (p.bids.pop maxCmp nowBid).1⟩)
      else if ask.amount < bid.amount then
        (some ⟨bid.price, ask.amount⟩, ⟨(p.asks.pop minCmp nowAsk).1, p.bids.update (bid.amount - ask.amount)⟩)
      else
        (some ⟨bid.price, bid.amount⟩, ⟨p.asks.update (ask.amount - bid.amount), (p.bids.pop maxCmp nowBid).1⟩)
    else (none, p)

/-- The heaps and the trades reported so far. -/
structure NoMemory where
  heaps : Heaps
  log : List Trade

namespace NoMemory

variable {σ : Type*}

/-- The body of the loop of `automatic_execution`. -/
def submit (s : NoMemory) (sub : Submission σ) : NoMemory :=
  let c := checkForTrade (sub.now 0) (sub.now 1) (s.heaps.push sub.order)
  ⟨c.2, s.log ++ c.1.toList⟩

def run (subs : List (Submission σ)) : NoMemory := subs.foldl submit ⟨.create, []⟩

theorem run_snoc (subs : List (Submission σ)) (sub : Submission σ) :
    run (subs ++ [sub]) = (run subs).submit sub := by
  simp [run, List.foldl_append]

end NoMemory

/-! ### The two checks -/

/-- `check_for_trade_multi` does to the heaps what `check_for_trade` does. -/
theorem checkForTradeMulti_eq (nb na : Nat) (ob : OrderBook) (mm : MemoryManager) :
    (checkForTradeMulti nb na ob mm).trade = (checkForTrade nb na ⟨ob.asks, ob.bids⟩).1 ∧
      (checkForTradeMulti nb na ob mm).ob.asks = (checkForTrade nb na ⟨ob.asks, ob.bids⟩).2.asks ∧
      (checkForTradeMulti nb na ob mm).ob.bids = (checkForTrade nb na ⟨ob.asks, ob.bids⟩).2.bids := by
  unfold checkForTradeMulti checkForTrade
  dsimp only
  by_cases h0 : ob.asks.size = 0 ∨ ob.bids.size = 0
  · simp only [if_pos h0, and_self]
  simp only [if_neg h0]
  by_cases hcross : ob.asks.peek.price ≤ ob.bids.peek.price
  · simp only [if_pos hcross]
    by_cases heq : ob.bids.peek.amount = ob.asks.peek.amount
    · simp only [if_pos heq, popSide_eq]
      exact ⟨by rw [heq], rfl, rfl⟩
    · by_cases hlt : ob.asks.peek.amount < ob.bids.peek.amount
      · simp only [if_neg heq, if_pos hlt, popSide_eq]
        exact ⟨trivial, rfl, rfl⟩
      · simp only [if_neg heq, if_neg hlt, popSide_eq]
        exact ⟨trivial, rfl, rfl⟩
  · simp only [if_neg hcross, and_self]

/-! ### Prices -/

/-- A key of each side that the comparison functions follow and a fill does not change. -/
structure Steady {κ : Type*} [LE κ] (f : Bool → Order → κ) : Prop where
  follows : ∀ ask, Follows (cmpOf ask) (f ask)
  amount : ∀ ask (o : Order) a, f ask { o with amount := a } = f ask o

def priceKey (ask : Bool) (o : Order) : Int := if ask then o.price else -o.price

theorem priceKey_le {ask : Bool} {a b : Order} (h : key ask a ≤ key ask b) : priceKey ask a ≤ priceKey ask b := by
  have hlt := mt (key_lt ask b a).2 (not_lt.2 h)
  unfold priceKey
  cases ask
  · simp only [Bool.false_eq_true, if_false, not_or, not_lt] at hlt ⊢
    omega
  · simp only [if_true, not_or, not_lt] at hlt ⊢
    omega

theorem steady_price : Steady priceKey :=
  ⟨fun ask => ⟨fun a b h => priceKey_le ((follows_key ask).of_true a b h),
    fun a b h => priceKey_le ((follows_key ask).of_false a b h)⟩, fun _ _ _ => rfl⟩

namespace Heaps

/-- Both heaps are sorted by a key. -/
def Sorted {κ : Type*} [LinearOrder κ] (f : Bool → Order → κ) (p : Heaps) : Prop :=
  ∀ ask, Ordered (f ask) (p.side ask).data (p.side ask).size

def Uncrossed (p : Heaps) : Prop := ∀ b ∈ p.bids.orders, ∀ a ∈ p.asks.orders, b.price < a.price

/-- An order reaches the price of a resting order of the other side. -/
def Crosses (o r : Order) : Prop := if o.type then o.price ≤ r.price else r.price ≤ o.price

/-- The best resting order of the other side has fewer shares than `o`, and `o` crosses another one as
well. -/
def CrossesTwice (p : Heaps) (o : Order) : Prop :=
  (p.side (!o.type)).peek.amount < o.amount ∧
    ∃ j < (p.side (!o.type)).size, 0 < j ∧ Crosses o ((p.side (!o.type)).data j)

instance (o r : Order) : Decidable (Crosses o r) :=
  inferInstanceAs (Decidable (if o.type then o.price ≤ r.price else r.price ≤ o.price))

instance (p : Heaps) (o : Order) : Decidable (p.CrossesTwice o) := inferInstanceAs (Decidable (_ ∧ _))

variable {p : Heaps} {o : Order} {nb na : Nat}

theorem crosses_iff {r : Order} : Crosses o r ↔ priceKey o.type o + priceKey (!o.type) r ≤ 0 := by
  unfold Crosses priceKey
  cases o.type
  · simp only [Bool.false_eq_true, if_false, Bool.not_false, if_true]; omega
  · simp only [if_true, Bool.not_true, Bool.false_eq_true, if_false]; omega

theorem uncrossed_iff (t : Bool) : p.Uncrossed ↔
    ∀ x ∈ (p.side t).orders, ∀ y ∈ (p.side !t).orders, 0 < priceKey t x + priceKey (!t) y := by
  unfold Uncrossed side priceKey
  cases t
  · simp only [Bool.false_eq_true, if_false, Bool.not_false, if_true]
    constructor
    · intro h x hx y hy
      have := h x hx y hy
      omega
    · intro h x hx y hy
      have := h x hx y hy
      omega
  · simp only [if_true, Bool.not_true, Bool.false_eq_true, if_false]
    constructor
    · intro h y hy x hx
      have := h x hx y hy
      omega
    · intro h x hx y hy
      have := h y hy x hx
      omega

theorem side_push (p : Heaps) (o : Order) : (p.push o).side o.type = (p.side o.type).push (cmpOf o.type) o ∧
    (p.push o).side (!o.type) = p.side (!o.type) := by
  unfold push side cmpOf
  cases o.type <;> simp

theorem push_side (p : Heaps) (o : Order) (t : Bool) :
    (p.push o).side t = if t = o.type then (p.side t).push (cmpOf t) o else p.side t := by
  unfold push side cmpOf
  cases o.type <;> cases t <;> rfl

end Heaps

/-- The root is used up by `a` shares, or left with the rest of its own. -/
def Heap.fill (cmp : Order → Order → Bool) (now : Nat) (h : Heap) (a : Int) : Heap :=
  if h.peek.amount ≤ a then (h.pop cmp now).1 else h.update (h.peek.amount - a)

theorem check_of_cross {p : Heaps} (nb na : Nat) (h0 : p.asks.size ≠ 0 ∧ p.bids.size ≠ 0)
    (hc : p.asks.peek.price ≤ p.bids.peek.price) :
    (checkForTrade nb na p).1.isSome = true ∧ ∀ t, (checkForTrade nb na p).2.side t =
      (p.side t).fill (cmpOf t) (if t then na else nb) (p.side !t).peek.amount := by
  unfold checkForTrade
  rw [if_neg (by omega)]
  dsimp only
  rw [if_pos hc]
  by_cases heq : p.bids.peek.amount = p.asks.peek.amount
  · rw [if_pos heq]
    refine ⟨rfl, fun t => ?_⟩
    cases t
    · exact (if_pos (le_of_eq heq)).symm
    · exact (if_pos (le_of_eq heq.symm)).symm
  · rw [if_neg heq]
    by_cases hlt : p.asks.peek.amount < p.bids.peek.amount
    · rw [if_pos hlt]
      refine ⟨rfl, fun t => ?_⟩
      cases t
      · exact (if_neg (not_le.2 hlt)).symm
      · exact (if_pos (le_of_lt hlt)).symm
    · rw [if_neg hlt]
      have hlt' : p.bids.peek.amount < p.asks.peek.amount := by omega
      refine ⟨rfl, fun t => ?_⟩
      cases t
      · exact (if_pos (le_of_lt hlt')).symm
      · exact (if_neg (not_le.2 hlt')).symm

theorem check_of_not_cross {p : Heaps} (nb na : Nat)
    (h : p.asks.size = 0 ∨ p.bids.size = 0 ∨ p.bids.peek.price < p.asks.peek.price) :
    checkForTrade nb na p = (none, p) := by
  unfold checkForTrade
  by_cases h0 : p.asks.size = 0 ∨ p.bids.size = 0
  · rw [if_pos h0]
  · rw [if_neg h0]
    exact if_neg (by omega)

theorem Heap.fill_spec {κ : Type*} [LinearOrder κ] {f : Bool → Order → κ} (hf : Steady f) {h : Heap} {t : Bool}
    (hh : BinHeap.Ordered (f t) h.data h.size) (h0 : h.size ≠ 0) (now : Nat) (a : Int) :
    BinHeap.Ordered (f t) (h.fill (cmpOf t) now a).data (h.fill (cmpOf t) now a).size ∧
      ∃ rest, h.orders = h.peek ::ₘ rest ∧ (h.fill (cmpOf t) now a).orders =
        if h.peek.amount ≤ a then rest else { h.peek with amount := short (h.peek.amount - a) } ::ₘ rest := by
  obtain ⟨hpop, hrest⟩ := Heap.pop_sorted (hf.follows t) hh h0 now
  refine ⟨?_, _, hrest, ?_⟩
  · unfold Heap.fill
    split
    · exact hpop
    · exact hh.update_root (hf.amount t _ _)
  · unfold Heap.fill
    split
    · rfl
    · have hu := Heap.update_orders h0 (h.peek.amount - a)
      rw [hrest, Multiset.cons_swap] at hu
      exact (Multiset.cons_inj_right _).1 hu

namespace Heaps

variable {p : Heaps} {o : Order}

theorem Sorted.push {κ : Type*} [LinearOrder κ] {f : Bool → Order → κ} (hf : Steady f) (hp : p.Sorted f) (o : Order) :
    (p.push o).Sorted f := by
  intro t
  rw [push_side]
  split
  · exact (Heap.push_sorted (hf.follows t) (hp t) o).1
  · exact hp t

theorem Sorted.check {κ : Type*} [LinearOrder κ] {f : Bool → Order → κ} (hf : Steady f) (hp : p.Sorted f) (nb na : Nat) :
    (checkForTrade nb na p).2.Sorted f := by
  by_cases hc : p.asks.size = 0 ∨ p.bids.size = 0 ∨ p.bids.peek.price < p.asks.peek.price
  · rw [check_of_not_cross nb na hc]; exact hp
  · have hsize : ∀ t, (p.side t).size ≠ 0 := fun t => by
      cases t
      · show p.bids.size ≠ 0; omega
      · show p.asks.size ≠ 0; omega
    intro t
    rw [(check_of_cross nb na ⟨hsize true, hsize false⟩ (by omega)).2 t]
    exact (Heap.fill_spec hf (hp t) (hsize t) _ _).1

/-- The sizes and roots that decide a check, from either side. -/
theorem cross_iff (t : Bool) (p : Heaps) :
    (p.asks.size = 0 ∨ p.bids.size = 0 ∨ p.bids.peek.price < p.asks.peek.price) ↔
      ((p.side t).size = 0 ∨ (p.side !t).size = 0 ∨ 0 < priceKey t (p.side t).peek + priceKey (!t) (p.side !t).peek) := by
  unfold side priceKey
  cases t
  · simp only [Bool.false_eq_true, if_false, Bool.not_false, if_true]; omega
  · simp only [if_true, Bool.not_true, Bool.false_eq_true, if_false]; omega

/-- An order that crosses an uncrossed book comes first on its side. -/
theorem peek_push (hp : p.Sorted priceKey) (hu : p.Uncrossed) (h0 : (p.side !o.type).size ≠ 0)
    (hc : priceKey o.type o + priceKey (!o.type) (p.side !o.type).peek ≤ 0) : ((p.push o).side o.type).peek = o := by
  obtain ⟨hown, -⟩ := p.side_push o
  obtain ⟨hord, horders⟩ := Heap.push_sorted (steady_price.follows o.type) (hp o.type) o
  rw [hown]
  have hsize : ((p.side o.type).push (cmpOf o.type) o).size ≠ 0 := Nat.succ_ne_zero _
  have hmem := Heap.peek_mem hsize
  rw [horders] at hmem
  rcases Multiset.mem_cons.1 hmem with heq | hmem
  · exact heq
  · have hpos := (uncrossed_iff o.type).1 hu _ hmem _ (Heap.peek_mem h0)
    obtain ⟨j, hj, ho⟩ := mem_contents.1 (show o ∈ ((p.side o.type).push (cmpOf o.type) o).orders by
      rw [horders]; exact Multiset.mem_cons_self _ _)
    have hle := hord.root_le j hj
    rw [ho] at hle
    have : priceKey o.type ((p.side o.type).push (cmpOf o.type) o).peek ≤ priceKey o.type o := hle
    omega

theorem mem_rest {h : Heap} {rest : Multiset Order} (hr : h.orders = h.peek ::ₘ rest) {y : Order} :
    y ∈ rest ↔ ∃ j, 0 < j ∧ j < h.size ∧ h.data j = y := by
  have hcard : h.size = rest.card + 1 := by rw [← Heap.card_orders, hr, Multiset.card_cons]
  have hroot : h.orders = h.peek ::ₘ contents (fun i => h.data (i + 1)) rest.card := by
    rw [Heap.orders, hcard]; exact contents_root
  rw [hr, Multiset.cons_inj_right] at hroot
  rw [hroot, mem_contents, hcard]
  constructor
  · rintro ⟨i, hi, rfl⟩
    exact ⟨i + 1, by omega, by omega, rfl⟩
  · rintro ⟨j, h0, hj, rfl⟩
    exact ⟨j - 1, by omega, by rw [Nat.sub_add_cancel h0]⟩

/-- One check after an order leaves an uncrossed book unless the order crosses twice. -/
theorem uncrossed_step (hp : p.Sorted priceKey) (hu : p.Uncrossed) (o : Order) (nb na : Nat) :
    (checkForTrade nb na (p.push o)).2.Uncrossed ↔ ¬ p.CrossesTwice o := by
  obtain ⟨hown, hother⟩ := p.side_push o
  obtain ⟨-, horders⟩ := Heap.push_sorted (steady_price.follows o.type) (hp o.type) o
  have hroot : ∀ y ∈ (p.side !o.type).orders,
      priceKey (!o.type) (p.side !o.type).peek ≤ priceKey (!o.type) y := by
    intro y hy
    obtain ⟨j, hj, rfl⟩ := mem_contents.1 hy
    exact (hp _).root_le j hj
  by_cases hc : (p.side !o.type).size = 0 ∨ 0 < priceKey o.type o + priceKey (!o.type) (p.side !o.type).peek
  · -- no trade: the order stays
    have hone : ∀ y ∈ (p.side !o.type).orders, 0 < priceKey o.type o + priceKey (!o.type) y := by
      intro y hy
      have hle := hroot y hy
      rcases hc with hc | hc
      · obtain ⟨j, hj, -⟩ := mem_contents.1 hy
        omega
      · omega
    have hq : (p.push o).Uncrossed := by
      rw [uncrossed_iff o.type, hown, hother]
      intro x hx y hy
      rw [horders] at hx
      rcases Multiset.mem_cons.1 hx with rfl | hx
      · exact hone y hy
      · exact (uncrossed_iff o.type).1 hu x hx y hy
    have hnone : checkForTrade nb na (p.push o) = (none, p.push o) := by
      refine check_of_not_cross nb na ((cross_iff o.type _).2 ?_)
      by_cases h0 : (p.side !o.type).size = 0
      · exact .inr (.inl (by rw [hother]; exact h0))
      · refine .inr (.inr ((uncrossed_iff o.type).1 hq _ (Heap.peek_mem ?_) _ (Heap.peek_mem ?_)))
        · rw [hown]; exact Nat.succ_ne_zero _
        · rw [hother]; exact h0
    rw [hnone]
    refine iff_of_true hq ?_
    rintro ⟨-, j, hj, -, hcr⟩
    have := hone _ (mem_contents.2 ⟨j, hj, rfl⟩)
    exact absurd (crosses_iff.1 hcr) (by omega)
  · obtain ⟨h0, hcross⟩ : (p.side !o.type).size ≠ 0 ∧
        priceKey o.type o + priceKey (!o.type) (p.side !o.type).peek ≤ 0 := by
      constructor <;> omega
    have hpeek := peek_push hp hu h0 hcross
    have hpush := hp.push steady_price o
    have hsize : ((p.push o).side o.type).size ≠ 0 := by rw [hown]; exact Nat.succ_ne_zero _
    have hnot := mt (cross_iff o.type (p.push o)).1 (by rw [hpeek, hother]; omega)
    have hside := (check_of_cross (p := p.push o) nb na (by omega) (by omega)).2
    rw [uncrossed_iff o.type, hside, hside, Bool.not_not, hpeek, hother]
    obtain ⟨-, rest, hrest, hfill⟩ := Heap.fill_spec steady_price (hpush o.type) hsize (if o.type then na else nb)
      (p.side !o.type).peek.amount
    obtain ⟨-, rest', hrest', hfill'⟩ := Heap.fill_spec steady_price (hp !o.type) h0 (if !o.type then na else nb) o.amount
    rw [hpeek] at hfill hrest
    rw [hfill, hfill']
    have hold : rest = (p.side o.type).orders := by
      rw [hown, horders] at hrest
      exact ((Multiset.cons_inj_right _).1 hrest).symm
    have hsub : ∀ y ∈ rest', y ∈ (p.side !o.type).orders := fun y hy => by
      rw [hrest']; exact Multiset.mem_cons_of_mem hy
    have hu' := (uncrossed_iff o.type).1 hu
    by_cases hlt : (p.side !o.type).peek.amount < o.amount
    · -- the order is left with shares, at the root of its side
      rw [if_neg (not_le.2 hlt), if_pos (le_of_lt hlt)]
      unfold CrossesTwice
      constructor
      · rintro h ⟨-, j, hj, hj0, hcr⟩
        have := h _ (Multiset.mem_cons_self _ _) _ ((mem_rest hrest').2 ⟨j, hj0, hj, rfl⟩)
        have hle := crosses_iff.1 hcr
        unfold priceKey at this hle
        dsimp only at this
        omega
      · intro hno x hx y hy
        rcases Multiset.mem_cons.1 hx with rfl | hx
        · obtain ⟨j, hj0, hj, rfl⟩ := (mem_rest hrest').1 hy
          by_contra hle
          refine hno ⟨hlt, j, hj, hj0, crosses_iff.2 ?_⟩
          unfold priceKey at hle ⊢
          dsimp only at hle
          omega
        · exact hu' x (hold ▸ hx) y (hsub y hy)
    · -- the order is used up
      rw [if_pos (not_lt.1 hlt)]
      refine iff_of_true ?_ fun htwice => hlt htwice.1
      intro x hx y hy
      split at hy
      · exact hu' x (hold ▸ hx) y (hsub y hy)
      · rcases Multiset.mem_cons.1 hy with rfl | hy
        · have := hu' x (hold ▸ hx) _ (Heap.peek_mem h0)
          unfold priceKey at this ⊢
          exact this
        · exact hu' x (hold ▸ hx) y (hsub y hy)

theorem check_of_uncrossed (hu : p.Uncrossed) (nb na : Nat) : checkForTrade nb na p = (none, p) := by
  refine check_of_not_cross nb na ?_
  by_contra hcon
  have := hu _ (Heap.peek_mem (h := p.bids) (by omega)) _ (Heap.peek_mem (h := p.asks) (by omega))
  omega

end Heaps

/-! ### Whole runs -/

def OrderBook.heaps (ob : OrderBook) : Heaps := ⟨ob.asks, ob.bids⟩

theorem pushOrder_heaps (ob : OrderBook) (o : Order) : (pushOrder ob o).heaps = ob.heaps.push o := by
  unfold pushOrder Heaps.push OrderBook.heaps
  cases o.type <;> rfl

theorem heaps_check (nb na : Nat) (ob : OrderBook) (mm : MemoryManager) :
    (checkForTradeMulti nb na ob mm).ob.heaps = (checkForTrade nb na ob.heaps).2 := by
  obtain ⟨-, ha, hb⟩ := checkForTradeMulti_eq nb na ob mm
  unfold OrderBook.heaps at *
  rw [ha, hb]

namespace Desk

variable {d d' : Desk} {now : Nat → Nat} {j fuel : Nat}

theorem last_heaps (d : Desk) (now : Nat → Nat) (j : Nat) :
    (d.last now j).ob.heaps = (checkForTrade (now (2 * j)) (now (2 * j + 1)) d.ob.heaps).2 :=
  heaps_check _ _ _ _

/-- A round is a check, whatever is done to the memory. -/
theorem round_cases (d : Desk) (now : Nat → Nat) (j : Nat) :
    ((checkForTrade (now (2 * j)) (now (2 * j + 1)) d.ob.heaps).1 = none ∧ d.round now j = none) ∨
      ∃ t d', (checkForTrade (now (2 * j)) (now (2 * j + 1)) d.ob.heaps).1 = some t ∧ d.round now j = some d' ∧
        d'.ob.heaps = (checkForTrade (now (2 * j)) (now (2 * j + 1)) d.ob.heaps).2 ∧ d'.log = d.log ++ [t] := by
  have htrade := (checkForTradeMulti_eq (now (2 * j)) (now (2 * j + 1)) d.ob d.mm).1
  have hheaps := heaps_check (now (2 * j)) (now (2 * j + 1)) d.ob d.mm
  rw [show (⟨d.ob.asks, d.ob.bids⟩ : Heaps) = d.ob.heaps from rfl] at htrade
  rcases ht : (checkForTrade (now (2 * j)) (now (2 * j + 1)) d.ob.heaps).1 with _ | t
  · exact .inl ⟨rfl, Option.map_eq_none_iff.2 (htrade.trans ht)⟩
  · refine .inr ⟨t, _, rfl, Option.map_eq_some_iff.2 ⟨t, htrade.trans ht, rfl⟩, ?_, rfl⟩
    rw [← hheaps]
    unfold postTradeCleanup OrderBook.heaps
    rw [(freeNodeMemory_heaps _ _).1, (freeNodeMemory_heaps _ _).2.1]

/-- The loop makes one check when that leaves the book uncrossed. -/
theorem loop_once (hu : (checkForTrade (now 0) (now 1) d.ob.heaps).2.Uncrossed)
    (hfuel : d.ob.asks.size ≠ 0 → d.ob.bids.size ≠ 0 → 1 < fuel) (h0 : 0 < fuel) :
    (d.loop now fuel 0).ob.heaps = (checkForTrade (now 0) (now 1) d.ob.heaps).2 ∧
      (d.loop now fuel 0).log = d.log ++ (checkForTrade (now 0) (now 1) d.ob.heaps).1.toList := by
  obtain ⟨fuel, rfl⟩ : ∃ k, fuel = k + 1 := ⟨fuel - 1, by omega⟩
  unfold Desk.loop
  rcases round_cases d now 0 with ⟨hnone, hr⟩ | ⟨t, d', ht, hr, hheaps, hlog⟩
  · rw [hr]
    refine ⟨last_heaps d now 0, ?_⟩
    rw [show (checkForTrade (now 0) (now 1) d.ob.heaps).1 = none from hnone]
    exact (List.append_nil _).symm
  · rw [hr]
    have hne : d.ob.asks.size ≠ 0 ∧ d.ob.bids.size ≠ 0 := by
      by_contra hcon
      rw [check_of_not_cross (p := d.ob.heaps) _ _ (show d.ob.asks.size = 0 ∨ d.ob.bids.size = 0 ∨ _ by omega)] at ht
      cases ht
    obtain ⟨fuel, rfl⟩ : ∃ k, fuel = k + 1 := ⟨fuel - 1, by have := hfuel hne.1 hne.2; omega⟩
    have hu' : d'.ob.heaps.Uncrossed := by rw [hheaps]; exact hu
    dsimp only
    unfold Desk.loop
    rcases round_cases d' now (0 + 1) with ⟨-, hr'⟩ | ⟨t', d'', ht', -⟩
    · rw [hr']
      constructor
      · rw [← hheaps]
        exact (last_heaps d' now 1).trans (by rw [Heaps.check_of_uncrossed hu'])
      · rw [show (checkForTrade (now 0) (now 1) d.ob.heaps).1 = some t from ht]
        exact hlog
    · rw [Heaps.check_of_uncrossed hu'] at ht'
      cases ht'

/-- An accepted order is pushed and checked once when that leaves the book uncrossed. -/
theorem submit_once {o : Order} {symId : Int} (hacc : (memAwareInsert d.ob d.mm o symId).1 = true)
    (hu : (checkForTrade (now 0) (now 1) (d.ob.heaps.push o)).2.Uncrossed) :
    (d.submit o symId now).ob.heaps = (checkForTrade (now 0) (now 1) (d.ob.heaps.push o)).2 ∧
      (d.submit o symId now).log = d.log ++ (checkForTrade (now 0) (now 1) (d.ob.heaps.push o)).1.toList := by
  obtain ⟨hb, ha⟩ := memAwareInsert_heaps hacc
  have hins : (memAwareInsert d.ob d.mm o symId).2.1.heaps = d.ob.heaps.push o := by
    rw [← pushOrder_heaps]
    unfold OrderBook.heaps
    rw [ha, hb]
  unfold Desk.submit
  dsimp only
  rw [if_pos hacc, ← hins]
  rw [← hins] at hu
  refine loop_once (d := ⟨(memAwareInsert d.ob d.mm o symId).2.1, (memAwareInsert d.ob d.mm o symId).2.2, d.log,
    d.openFiles⟩) hu ?_ (Nat.succ_pos _)
  intro h1 h2
  dsimp only at h1 h2
  omega

end Desk

namespace NoMemory

variable {σ : Type*}

theorem run_sorted {κ : Type*} [LinearOrder κ] {f : Bool → Order → κ} (hf : Steady f) (subs : List (Submission σ)) :
    (run subs).heaps.Sorted f := by
  induction subs using List.reverseRecOn with
  | nil => intro t i _ hi; cases t <;> exact absurd hi (Nat.not_lt_zero _)
  | append_singleton subs sub ih => rw [run_snoc]; exact (ih.push hf sub.order).check hf _ _

/-- No order of a run crosses twice. -/
def OneTrade (subs : List (Submission σ)) : Prop :=
  ∀ n < subs.length, ∀ sub ∈ subs[n]?, ¬ (run (subs.take n)).heaps.CrossesTwice sub.order

instance (subs : List (Submission σ)) : Decidable (OneTrade subs) :=
  inferInstanceAs (Decidable (∀ n < _, _))

/-- The book is uncrossed after each order. -/
def StaysUncrossed (subs : List (Submission σ)) : Prop :=
  ∀ n ≤ subs.length, (run (subs.take n)).heaps.Uncrossed

theorem uncrossed_create : (run ([] : List (Submission σ))).heaps.Uncrossed := by
  intro b hb
  obtain ⟨j, hj, -⟩ := BinHeap.mem_contents.1 hb
  exact absurd hj (Nat.not_lt_zero _)

theorem run_take_succ {subs : List (Submission σ)} {n : Nat} {sub : Submission σ} (h : subs[n]? = some sub) :
    run (subs.take (n + 1)) = (run (subs.take n)).submit sub := by
  obtain ⟨hn, hget⟩ := List.getElem?_eq_some_iff.1 h
  rw [List.take_succ_eq_append_getElem hn, run_snoc, hget]

theorem staysUncrossed_iff (subs : List (Submission σ)) : StaysUncrossed subs ↔ OneTrade subs := by
  constructor
  · intro h n hn sub hsub
    have hnext := h (n + 1) hn
    rw [run_take_succ hsub] at hnext
    exact (Heaps.uncrossed_step (run_sorted steady_price _) (h n (Nat.le_of_lt hn)) _ _ _).1 hnext
  · intro h n
    induction n with
    | zero => intro _; exact uncrossed_create
    | succ n ih =>
      intro hn
      have hget : subs[n]? = some subs[n] := List.getElem?_eq_getElem hn
      rw [run_take_succ hget]
      exact (Heaps.uncrossed_step (run_sorted steady_price _) (ih (Nat.le_of_lt hn)) _ _ _).2 (h n hn _ hget)

variable [DecidableEq σ]

/-- As long as the book stays uncrossed, both simulators hold the same heaps and have made the same
trades. -/
theorem run_same {symbol : σ} {subs : List (Submission σ)} (hsym : ∀ sub ∈ subs, sub.symbol = symbol)
    (hacc : Sim.NoReject subs) (hu : StaysUncrossed subs) :
    ∃ ob, Sim.findOrCreateBook (Sim.run subs).books symbol = [(symbol, ob)] ∧ ob.heaps = (run subs).heaps ∧
      (Sim.run subs).log = (run subs).log.map fun t => (symbol, t) := by
  induction subs using List.reverseRecOn with
  | nil => exact ⟨createOrderBook, rfl, rfl, rfl⟩
  | append_singleton subs sub ih =>
    obtain ⟨hacc, hsub⟩ := hacc.init
    have hu₀ : StaysUncrossed subs := by
      intro n hn
      have := hu n (by rw [List.length_append]; omega)
      rwa [List.take_append_of_le_length hn] at this
    have hlast := hu (subs ++ [sub]).length (Nat.le_refl _)
    rw [List.take_length, run_snoc] at hlast
    obtain ⟨ob, hbooks, hheaps, hlog⟩ := ih (fun x hx => hsym x (by simp [hx])) hacc hu₀
    have hs : sub.symbol = symbol := hsym sub (by simp)
    have hid : Sim.symId [(symbol, ob)] symbol = 0 := by simp [Sim.symId, List.findIdx_cons]
    simp only [Sim.Accepts, hs, hbooks, hid] at hsub
    obtain ⟨hob, hnew⟩ := @Desk.submit_once ⟨ob, (Sim.run subs).mm, [], (Sim.run subs).openFiles⟩ sub.now _ _
      (hsub (symbol, ob) rfl) (by rw [hheaps]; exact hlast)
    rw [Sim.run_snoc, run_snoc]
    simp only [Sim.submit, hs, hbooks, hid, List.getElem?_cons_zero, List.set_cons_zero]
    refine ⟨_, ?_, hob.trans (by rw [hheaps]; rfl), ?_⟩
    · simp [Sim.findOrCreateBook]
    · rw [hnew, hlog, hheaps, List.nil_append, ← List.map_append]
      rfl

/-- On one symbol, without rejects, `no_memory_sim` makes the trades of `memory_sim` and leaves an
uncrossed book after each order exactly when no order crosses two resting orders with shares to spare
after the first. -/
theorem agrees_iff (symbol : σ) (subs : List (Submission σ)) (hsym : ∀ sub ∈ subs, sub.symbol = symbol)
    (hacc : Sim.NoReject subs) :
    ((run subs).log = (Sim.run subs).log.map Prod.snd ∧ StaysUncrossed subs) ↔ OneTrade subs := by
  constructor
  · rintro ⟨-, hu⟩
    exact (staysUncrossed_iff subs).1 hu
  · intro h
    have hu := (staysUncrossed_iff subs).2 h
    obtain ⟨-, -, -, hlog⟩ := run_same hsym hacc hu
    refine ⟨?_, hu⟩
    rw [hlog, List.map_map]
    exact (List.map_id' _).symm

/-- A bid and an ask for fewer shares. -/
def bidThenAsk : List (Submission Nat) :=
  [⟨0, ⟨5, 1, 3, false⟩, fun _ => 0⟩, ⟨0, ⟨5, 2, 2, true⟩, fun _ => 0⟩]

theorem agrees_bidThenAsk : (run bidThenAsk).log = [⟨5, 2⟩] ∧
    (run bidThenAsk).log = (Sim.run bidThenAsk).log.map Prod.snd ∧ StaysUncrossed bidThenAsk :=
  ⟨by decide +kernel, (agrees_iff 0 bidThenAsk (by decide) (by decide +kernel)).2 (by decide +kernel)⟩

/-- Two asks, and a bid for the shares of both. -/
def bidForTwo : List (Submission Nat) :=
  [⟨0, ⟨5, 1, 1, true⟩, fun _ => 0⟩, ⟨0, ⟨5, 2, 1, true⟩, fun _ => 0⟩, ⟨0, ⟨5, 3, 2, false⟩, fun _ => 0⟩]

/-- The second ask is left at the price of the bid. -/
theorem bidForTwo_differs : (∀ sub ∈ bidForTwo, sub.symbol = 0) ∧ Sim.NoReject bidForTwo ∧
    (run bidForTwo).log = [⟨5, 1⟩] ∧ (Sim.run bidForTwo).log.map Prod.snd = [⟨5, 1⟩, ⟨5, 1⟩] ∧
    ¬ StaysUncrossed bidForTwo := by
  refine ⟨by decide, by decide +kernel, by decide +kernel, by decide +kernel, ?_⟩
  rw [staysUncrossed_iff]
  decide +kernel

end NoMemory

end HftSim.Golden
