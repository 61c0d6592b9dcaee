import HftSim.Golden.NoMemory

/-!
# Partial fills and ties

A partial fill rewrites the amount of the root, which the comparison looks at when price and timestamp are
equal, and does not sift. Over every sequence of operations the heaps stay in order exactly as long as no
tied child of the root is left with more shares than the root (`KeepsTies`).
-/

namespace HftSim.Golden

open Function BinHeap

/-- What is done to the two heaps of a symbol. `ob` and `mm` are what `check_for_trade_multi` has besides
them. -/
inductive HeapOp
  | push (o : Order)
  | pop (ask : Bool) (now : Nat)
  | check (nowBid nowAsk : Nat)
  | checkMulti (nowBid nowAsk : Nat) (ob : OrderBook) (mm : MemoryManager)

namespace HeapOp

def apply (p : Heaps) : HeapOp → Heaps
  | .push o => p.push o
  | .pop ask now =>
    if (p.side ask).size = 0 then p
    else if ask then { p with asks := (p.asks.pop minCmp now).1 } else { p with bids := (p.bids.pop maxCmp now).1 }
  | .check nowBid nowAsk => (checkForTrade nowBid nowAsk p).2
  | .checkMulti nowBid nowAsk ob mm =>
    (checkForTradeMulti nowBid nowAsk { ob with asks := p.asks, bids := p.bids } mm).ob.heaps

def run (ops : List HeapOp) : Heaps := ops.foldl apply .create

/-- An order has shares, and fewer than 2^15. -/
def Sound : HeapOp → Prop
  | .push o => 0 < o.amount ∧ o.amount < 2 ^ 15
  | _ => True

def IsCheck : HeapOp → Prop
  | .check _ _ | .checkMulti _ _ _ _ => True
  | _ => False

instance : DecidablePred Sound
  | .push o => inferInstanceAs (Decidable (0 < o.amount ∧ o.amount < 2 ^ 15))
  | .pop _ _ | .check _ _ | .checkMulti _ _ _ _ => isTrue trivial

instance : DecidablePred IsCheck
  | .check _ _ | .checkMulti _ _ _ _ => isTrue trivial
  | .push _ | .pop _ _ => isFalse id

end HeapOp

/-- No order is beaten by one of its children. -/
def Heap.Unbeaten (cmp : Order → Order → Bool) (h : Heap) : Prop :=
  ∀ i c, (c = 2 * i + 1 ∨ c = 2 * i + 2) → c < h.size → cmp (h.data c) (h.data i) = false

/-- `peek` returns a best order. -/
def Heap.PeekBest (cmp : Order → Order → Bool) (h : Heap) : Prop := ∀ o ∈ h.orders, cmp o h.peek = false

namespace Heaps

structure InOrder (p : Heaps) : Prop where
  bids : p.bids.Unbeaten maxCmp
  asks : p.asks.Unbeaten minCmp
  bestBid : p.bids.PeekBest maxCmp
  bestAsk : p.asks.PeekBest minCmp

/-- When the heaps are crossed, and the root of side `ask` has more shares than the other root, none of its
children ties with it in price and timestamp and has more shares than it will be left with. -/
def KeepsTies (p : Heaps) : Prop :=
  p.asks.size ≠ 0 → p.bids.size ≠ 0 → p.asks.peek.price ≤ p.bids.peek.price → ∀ ask,
    (p.side !ask).peek.amount < (p.side ask).peek.amount → ∀ c < (p.side ask).size, c = 1 ∨ c = 2 →
      ((p.side ask).data c).price = (p.side ask).peek.price →
      ((p.side ask).data c).timestamp = (p.side ask).peek.timestamp →
      ((p.side ask).data c).amount ≤ (p.side ask).peek.amount - (p.side !ask).peek.amount

instance (p : Heaps) : Decidable p.KeepsTies := inferInstanceAs (Decidable (_ → _ → _ → ∀ _, _))

def Positive (p : Heaps) : Prop := ∀ ask, ∀ o ∈ (p.side ask).orders, 0 < o.amount ∧ o.amount < 2 ^ 15

end Heaps

/-! ### One heap -/

theorem Heap.unbeaten_iff (ask : Bool) (h : Heap) : h.Unbeaten (cmpOf ask) ↔ h.Ordered ask := by
  constructor
  · intro hu i h0 hi
    exact (cmpOf_eq_false ask _ _).1 (hu (parent i) i ((parent_eq_iff h0).1 rfl) hi)
  · intro ho i c hc hlt
    have h0 : 0 < c := by omega
    have := ho c h0 hlt
    rw [(parent_eq_iff h0).2 hc] at this
    exact (cmpOf_eq_false ask _ _).2 this

theorem Heap.Ordered.peekBest {ask : Bool} {h : Heap} (ho : h.Ordered ask) : h.PeekBest (cmpOf ask) := by
  intro o hmem
  exact (cmpOf_eq_false ask _ _).2 (Heap.peek_le ho o hmem)

theorem Heaps.inOrder_iff (p : Heaps) : p.InOrder ↔ ∀ ask, (p.side ask).Ordered ask := by
  constructor
  · rintro ⟨hb, ha, -, -⟩ ask
    cases ask
    · exact (Heap.unbeaten_iff false _).1 hb
    · exact (Heap.unbeaten_iff true _).1 ha
  · intro h
    exact ⟨(Heap.unbeaten_iff false _).2 (h false), (Heap.unbeaten_iff true _).2 (h true),
      (h false).peekBest, (h true).peekBest⟩

/-- Lowering the root's amount keeps the heap in order when no tied child has more. -/
theorem Heap.Ordered.update_iff {ask : Bool} {h : Heap} {a : Int} (ho : h.Ordered ask) (ha : short a = a) :
    (h.update a).Ordered ask ↔ ∀ c < h.size, c = 1 ∨ c = 2 → (h.data c).price = h.peek.price →
      (h.data c).timestamp = h.peek.timestamp → (h.data c).amount ≤ a := by
  have hroot : (h.update a).data 0 = { h.peek with amount := a } := by
    unfold Heap.update
    rw [ha]
    exact Function.update_self 0 _ h.data
  have hother : ∀ i, 0 < i → (h.update a).data i = h.data i := fun i hi =>
    update_of_ne (Nat.ne_of_gt hi) _ _
  have hchild : ∀ c, 0 < c → (parent c = 0 ↔ c = 1 ∨ c = 2) := fun c hc => parent_eq_iff hc
  have hkey : ∀ c < h.size, (key ask { h.peek with amount := a } ≤ key ask (h.data c) ↔
      ((h.data c).price = h.peek.price → (h.data c).timestamp = h.peek.timestamp → (h.data c).amount ≤ a)) := by
    intro c hc
    have hle := mt (key_lt ask (h.data c) (h.data 0)).2 (not_lt.2 (BinHeap.Ordered.root_le ho c hc))
    rw [← not_lt, key_lt]
    change ¬ (_ ∨ (h.data c).price = h.peek.price ∧ ((h.data c).timestamp < h.peek.timestamp ∨ _)) at hle
    dsimp only
    constructor
    · intro hn hp ht
      by_contra hlt
      exact hn (.inr ⟨hp, .inr ⟨ht, not_le.1 hlt⟩⟩)
    · rintro hties (hp | ⟨hp, ht | ⟨ht, hlt⟩⟩)
      · exact hle (.inl hp)
      · exact hle (.inr ⟨hp, .inl ht⟩)
      · exact absurd (hties hp ht) (not_le.2 hlt)
  constructor
  · intro hup c hc h12
    have h0 : 0 < c := by omega
    have := hup c h0 hc
    rw [(hchild c h0).2 h12, hroot, hother c h0] at this
    exact (hkey c hc).1 this
  · intro hties i h0 hi
    rw [hother i h0]
    by_cases hp : parent i = 0
    · rw [hp, hroot]
      exact (hkey i hi).2 (hties i hi ((hchild i h0).1 hp))
    · rw [hother _ (Nat.pos_of_ne_zero hp)]
      exact ho i h0 hi

/-! ### What the operations leave -/

/-- A key that tells no orders apart: every array is sorted by it. -/
theorem follows_const (cmp : Order → Order → Bool) : Follows cmp fun _ => (0 : Nat) :=
  ⟨fun _ _ _ => le_refl _, fun _ _ _ => le_refl _⟩

theorem ordered_const (d : Nat → Order) (n : Nat) : Ordered (fun _ => (0 : Nat)) d n := fun _ _ _ => le_refl _

theorem Heap.push_orders (cmp : Order → Order → Bool) (h : Heap) (o : Order) :
    (h.push cmp o).orders = o ::ₘ h.orders :=
  (Heap.push_sorted (follows_const cmp) (ordered_const _ _) o).2

theorem Heap.pop_orders (cmp : Order → Order → Bool) {h : Heap} (h0 : h.size ≠ 0) (now : Nat) :
    h.orders = h.peek ::ₘ (h.pop cmp now).1.orders :=
  (Heap.pop_sorted (follows_const cmp) (ordered_const _ _) h0 now).2

theorem Heap.mem_fill {cmp : Order → Order → Bool} {h : Heap} (h0 : h.size ≠ 0) {now : Nat} {a : Int} {x : Order}
    (hx : x ∈ (h.fill cmp now a).orders) :
    x ∈ h.orders ∨ a < h.peek.amount ∧ x = { h.peek with amount := short (h.peek.amount - a) } := by
  unfold Heap.fill at hx
  split at hx
  · exact .inl (by rw [Heap.pop_orders cmp h0 now]; exact Multiset.mem_cons_of_mem hx)
  · rename_i hlt
    have hx' : x ∈ h.peek ::ₘ (h.update (h.peek.amount - a)).orders := Multiset.mem_cons_of_mem hx
    rw [Heap.update_orders h0] at hx'
    rcases Multiset.mem_cons.1 hx' with hx' | hx'
    · exact .inr ⟨not_le.1 hlt, hx'⟩
    · exact .inl hx'

namespace Heaps

variable {p : Heaps} {o : Order}

theorem check_cases (p : Heaps) {op : HeapOp} (hop : op.IsCheck) :
    ((p.asks.size = 0 ∨ p.bids.size = 0 ∨ p.bids.peek.price < p.asks.peek.price) ∧ op.apply p = p) ∨
      p.asks.size ≠ 0 ∧ p.bids.size ≠ 0 ∧ p.asks.peek.price ≤ p.bids.peek.price ∧
        ∃ now : Bool → Nat, ∀ t, (op.apply p).side t = (p.side t).fill (cmpOf t) (now t) (p.side !t).peek.amount := by
  have hcheck : ∃ nb na, op.apply p = (checkForTrade nb na p).2 := by
    rcases op with _ | _ | ⟨nb, na⟩ | ⟨nb, na, ob, mm⟩
    · exact hop.elim
    · exact hop.elim
    · exact ⟨nb, na, rfl⟩
    · exact ⟨nb, na, heaps_check nb na { ob with asks := p.asks, bids := p.bids } mm⟩
  obtain ⟨nb, na, he⟩ := hcheck
  rw [he]
  by_cases hc : p.asks.size = 0 ∨ p.bids.size = 0 ∨ p.bids.peek.price < p.asks.peek.price
  · exact .inl ⟨hc, by rw [check_of_not_cross nb na hc]⟩
  · refine .inr ⟨by omega, by omega, by omega, fun t => if t then na else nb, ?_⟩
    exact (check_of_cross nb na (by omega) (by omega)).2

theorem pop_side (p : Heaps) (ask : Bool) (now : Nat) (h0 : (p.side ask).size ≠ 0) (t : Bool) :
    (HeapOp.apply p (.pop ask now)).side t = if t = ask then ((p.side ask).pop (cmpOf ask) now).1 else p.side t := by
  simp only [HeapOp.apply, if_neg h0]
  unfold side cmpOf
  cases ask <;> cases t <;> rfl

theorem size_side (hs : p.asks.size ≠ 0 ∧ p.bids.size ≠ 0) (t : Bool) : (p.side t).size ≠ 0 := by
  cases t
  · exact hs.2
  · exact hs.1

theorem Positive.apply (hp : p.Positive) {op : HeapOp} (hop : op.Sound) : (op.apply p).Positive := by
  have hcheck : op.IsCheck → (op.apply p).Positive := by
    intro hc
    rcases check_cases p hc with ⟨-, he⟩ | ⟨h1, h2, -, now, hside⟩
    · rw [he]; exact hp
    · intro t x hx
      rw [hside t] at hx
      have hpeek := hp t _ (Heap.peek_mem (size_side ⟨h1, h2⟩ t))
      have hother := hp (!t) _ (Heap.peek_mem (size_side ⟨h1, h2⟩ !t))
      rcases Heap.mem_fill (size_side ⟨h1, h2⟩ t) hx with hx | ⟨hlt, rfl⟩
      · exact hp t x hx
      · rw [short_eq (by omega) (by omega)]
        constructor
        · show 0 < _ - _
          omega
        · show _ - _ < _
          omega
  rcases op with o | ⟨ask, now⟩ | ⟨nb, na⟩ | ⟨nb, na, ob, mm⟩
  · intro t x hx
    change x ∈ ((p.push o).side t).orders at hx
    rw [push_side] at hx
    split at hx
    · rw [Heap.push_orders] at hx
      rcases Multiset.mem_cons.1 hx with rfl | hx
      · exact hop
      · exact hp t x hx
    · exact hp t x hx
  · by_cases h0 : (p.side ask).size = 0
    · simp only [HeapOp.apply, if_pos h0]
      exact hp
    · intro t x hx
      rw [pop_side p ask now h0] at hx
      split at hx
      · rename_i ht
        exact hp ask x (by rw [Heap.pop_orders (cmpOf ask) h0 now]; exact Multiset.mem_cons_of_mem hx)
      · exact hp t x hx
  · exact hcheck trivial
  · exact hcheck trivial

/-- A check of heaps in order leaves them in order when it respects the ties. -/
theorem inOrder_check (hp : p.InOrder) (hpos : p.Positive) {op : HeapOp} (hop : op.IsCheck) :
    (op.apply p).InOrder ↔ p.KeepsTies := by
  rw [inOrder_iff] at hp ⊢
  rcases check_cases p hop with ⟨hc, he⟩ | ⟨h1, h2, hc, now, hside⟩
  · rw [he]
    exact iff_of_true hp fun h1 h2 hle => by omega
  · have hfill : ∀ t, ((op.apply p).side t).Ordered t ↔ ((p.side !t).peek.amount < (p.side t).peek.amount →
        ∀ c < (p.side t).size, c = 1 ∨ c = 2 → ((p.side t).data c).price = (p.side t).peek.price →
          ((p.side t).data c).timestamp = (p.side t).peek.timestamp →
          ((p.side t).data c).amount ≤ (p.side t).peek.amount - (p.side !t).peek.amount) := by
      intro t
      have hpeek := hpos t _ (Heap.peek_mem (size_side ⟨h1, h2⟩ t))
      have hother := hpos (!t) _ (Heap.peek_mem (size_side ⟨h1, h2⟩ !t))
      rw [hside t]
      unfold Heap.fill
      by_cases hle : (p.side t).peek.amount ≤ (p.side !t).peek.amount
      · rw [if_pos hle]
        exact iff_of_true (Heap.pop_spec (hp t) (size_side ⟨h1, h2⟩ t) _).1 fun hlt => absurd hlt (not_lt.2 hle)
      · rw [if_neg hle, (hp t).update_iff (short_eq (by omega) (by omega))]
        exact ⟨fun h _ => h, fun h => h (not_le.1 hle)⟩
    constructor
    · intro h _ _ _ t
      exact (hfill t).1 (h t)
    · intro h t
      exact (hfill t).2 (h h1 h2 hc t)

theorem inOrder_step (hp : p.InOrder) (hpos : p.Positive) (op : HeapOp) :
    (op.apply p).InOrder ↔ (op.IsCheck → p.KeepsTies) := by
  by_cases hop : op.IsCheck
  · rw [inOrder_check hp hpos hop]
    exact ⟨fun h _ => h, fun h => h hop⟩
  · refine iff_of_true ?_ fun h => absurd h hop
    rw [inOrder_iff] at hp ⊢
    rcases op with o | ⟨ask, now⟩ | ⟨nb, na⟩ | ⟨nb, na, ob, mm⟩
    · intro t
      change ((p.push o).side t).Ordered t
      rw [push_side]
      split
      · exact (Heap.push_spec (hp t) o).1
      · exact hp t
    · intro t
      by_cases h0 : (p.side ask).size = 0
      · simp only [HeapOp.apply, if_pos h0]
        exact hp t
      · rw [pop_side p ask now h0]
        split
        · rename_i ht
          rw [ht]
          exact (Heap.pop_spec (hp ask) h0 now).1
        · exact hp t
    · exact absurd trivial hop
    · exact absurd trivial hop

end Heaps

/-! ### Whole runs -/

namespace HeapOp

theorem run_take_succ {ops : List HeapOp} {n : Nat} {op : HeapOp} (h : ops[n]? = some op) :
    run (ops.take (n + 1)) = op.apply (run (ops.take n)) := by
  obtain ⟨hn, hget⟩ := List.getElem?_eq_some_iff.1 h
  rw [List.take_succ_eq_append_getElem hn, run, List.foldl_append, hget]
  rfl

theorem run_positive {ops : List HeapOp} (hops : ∀ op ∈ ops, op.Sound) : (run ops).Positive := by
  induction ops using List.reverseRecOn with
  | nil =>
    intro t o ho
    obtain ⟨j, hj, -⟩ := mem_contents.1 ho
    cases t <;> exact absurd hj (Nat.not_lt_zero _)
  | append_singleton ops op ih =>
    rw [run, List.foldl_append]
    exact (ih fun x hx => hops x (by simp [hx])).apply (hops op (by simp))

theorem inOrder_create : Heaps.create.InOrder := by
  rw [Heaps.inOrder_iff]
  intro t i _ hi
  cases t <;> exact absurd hi (Nat.not_lt_zero _)

/-- The heaps are in order after every operation exactly when every check respects the ties. -/
theorem run_inOrder_iff (ops : List HeapOp) (hops : ∀ op ∈ ops, op.Sound) :
    (∀ n ≤ ops.length, (run (ops.take n)).InOrder) ↔
      ∀ n < ops.length, ∀ op ∈ ops[n]?, op.IsCheck → (run (ops.take n)).KeepsTies := by
  have hpos : ∀ n, (run (ops.take n)).Positive := fun n =>
    run_positive fun op hop => hops op (List.mem_of_mem_take hop)
  constructor
  · intro h n hn op hop
    have hnext := h (n + 1) hn
    rw [run_take_succ hop] at hnext
    exact (Heaps.inOrder_step (h n (Nat.le_of_lt hn)) (hpos n) op).1 hnext
  · intro h n
    induction n with
    | zero => intro _; exact inOrder_create
    | succ n ih =>
      intro hn
      have hget : ops[n]? = some ops[n] := List.getElem?_eq_getElem hn
      rw [run_take_succ hget]
      exact (Heaps.inOrder_step (ih (Nat.le_of_lt hn)) (hpos n) _).2 (h n hn _ hget)

/-- Two bids at one price, and an ask that takes part of the first. The bids come at times `t` and `t'`. -/
def partialFill (t t' : Nat) : List HeapOp :=
  [.push ⟨5, t, 10, false⟩, .push ⟨5, t', 8, false⟩, .push ⟨5, 9, 5, true⟩, .check 0 0]

theorem partialFill_inOrder : (∀ op ∈ partialFill 7 8, op.Sound) ∧ (run (partialFill 7 8)).bids.peek.amount = 5 ∧
    ∀ n ≤ 4, (run ((partialFill 7 8).take n)).InOrder :=
  ⟨by decide, by decide +kernel, (run_inOrder_iff (partialFill 7 8) (by decide)).2 (by decide +kernel)⟩

/-- Left with 5 shares, the first bid is beaten by the second, which has 8 and came at the same time. -/
theorem partialFill_beaten : (∀ op ∈ partialFill 7 7, op.Sound) ∧
    maxCmp ((run (partialFill 7 7)).bids.data 1) (run (partialFill 7 7)).bids.peek = true ∧
    ¬ (run (partialFill 7 7)).InOrder := by
  have hbeaten : maxCmp ((run (partialFill 7 7)).bids.data 1) (run (partialFill 7 7)).bids.peek = true := by
    decide +kernel
  refine ⟨by decide, hbeaten, fun h => ?_⟩
  have := h.bids 0 1 (.inl rfl) (by decide +kernel)
  exact absurd (hbeaten.symm.trans this) (by decide)

end HeapOp

end HftSim.Golden
