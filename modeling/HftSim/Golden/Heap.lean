import HftSim.Lib.BinHeap
import Mathlib.Data.Prod.Lex
import Mathlib.Algebra.Order.Group.Int
import Mathlib.Algebra.Order.Ring.Nat

/-!
# The golden model's heaps (`sw_sim/heap.h`)

An array of orders, sifted by swaps. `cmp` is one of the two comparison functions, as the test
`cmp(a, b) == a`. `sift_down` also drops the orders that have expired by the clock `now`; no order
ever does (`isExpired_eq`).
-/

namespace HftSim.Golden

open Function BinHeap

/-- `type` is 1 for an ask. -/
structure Order where
  price : Int
  timestamp : Nat
  amount : Int
  type : Bool
deriving DecidableEq, Repr

/-- Conversion to `short`. -/
def short (x : Int) : Int := (x + 2 ^ 15) % 2 ^ 16 - 2 ^ 15

/-- The part the two comparison functions share: equal prices. -/
def tieCmp (a b : Order) : Bool :=
  if a.timestamp < b.timestamp then true
  else if a.timestamp = b.timestamp then decide (b.amount < a.amount)
  else false

def minCmp (a b : Order) : Bool :=
  if a.price < b.price then true else if a.price = b.price then tieCmp a b else false

def maxCmp (a b : Order) : Bool :=
  if b.price < a.price then true else if a.price = b.price then tieCmp a b else false

structure Heap where
  data : Nat → Order
  size : Nat
  capacity : Nat

def createHeap (capacity : Nat) : Heap := ⟨fun _ => ⟨0, 0, 0, false⟩, 0, capacity⟩

def swap (d : Nat → Order) (a b : Nat) : Nat → Order := fun i =>
  if i = a then d b else if i = b then d a else d i

/-- The loop of `sift_up`; `i` rounds are enough from cell `i`. -/
def siftUpLoop (cmp : Order → Order → Bool) : Nat → (Nat → Order) → Nat → (Nat → Order)
  | 0, d, _ => d
  | fuel + 1, d, i =>
    if 0 < i then
      if cmp (d i) (d (parent i)) then siftUpLoop cmp fuel (swap d i (parent i)) (parent i) else d
    else d

def siftUp (cmp : Order → Order → Bool) (d : Nat → Order) (i : Nat) : Nat → Order := siftUpLoop cmp i d i

/-- `TRIM_TIME` -/
def trimTime : Nat := 0xFFFFFFFFFFFF

/-- `now - o->timestamp` is taken in 32 bits. -/
def isExpired (o : Order) (now : Nat) : Bool := decide (trimTime < (now + 2 ^ 32 - o.timestamp) % 2 ^ 32)

/-- The cell `sift_down` swaps cell `i` with, or `i`. -/
def bestOf (cmp : Order → Order → Bool) (h : Heap) (i : Nat) : Nat :=
  let best := if 2 * i + 1 < h.size && cmp (h.data (2 * i + 1)) (h.data i) then 2 * i + 1 else i
  if 2 * i + 2 < h.size && cmp (h.data (2 * i + 2)) (h.data best) then 2 * i + 2 else best

/-- Overwrite cell `i` with the last order. -/
def Heap.drop (h : Heap) (i : Nat) : Heap :=
  { h with data := update h.data i (h.data (h.size - 1)), size := h.size - 1 }

/-- The loop of `sift_down`, with the number of orders dropped; each round lowers `size - i`. -/
def siftDownLoop (cmp : Order → Order → Bool) (now : Nat) : Nat → Heap → Nat → Heap × Nat
  | 0, h, _ => (h, 0)
  | fuel + 1, h, i =>
    if i < h.size then
      if 2 * i + 1 < h.size && isExpired (h.data (2 * i + 1)) now then
        let r := siftDownLoop cmp now fuel (h.drop (2 * i + 1)) i
        (r.1, r.2 + 1)
      else if 2 * i + 2 < h.size && isExpired (h.data (2 * i + 2)) now then
        let r := siftDownLoop cmp now fuel (h.drop (2 * i + 2)) i
        (r.1, r.2 + 1)
      else if bestOf cmp h i ≠ i then
        siftDownLoop cmp now fuel { h with data := swap h.data i (bestOf cmp h i) } (bestOf cmp h i)
      else (h, 0)
    else (h, 0)

def siftDown (cmp : Order → Order → Bool) (now : Nat) (h : Heap) (i : Nat) : Heap × Nat :=
  siftDownLoop cmp now h.size h i

/-- `update`: the amount of the root. -/
def Heap.update (h : Heap) (newAmount : Int) : Heap :=
  { h with data := Function.update h.data 0 { h.data 0 with amount := short newAmount } }

def Heap.push (cmp : Order → Order → Bool) (h : Heap) (val : Order) : Heap where
  data := siftUp cmp (Function.update h.data h.size val) h.size
  size := h.size + 1
  capacity := if h.size = h.capacity then h.capacity * 2 else h.capacity

/-- `pop`, with the number of expired orders dropped on the way. -/
def Heap.pop (cmp : Order → Order → Bool) (now : Nat) (h : Heap) : Heap × Nat :=
  siftDown cmp now (h.drop 0) 0

def Heap.peek (h : Heap) : Order := h.data 0

/-! ### Comparison -/

/-- Sort key: a smaller key sits closer to the root. -/
def key (ask : Bool) (o : Order) : Int ×ₗ (Nat ×ₗ Int) :=
  toLex (if ask then o.price else -o.price, toLex (o.timestamp, -o.amount))

/-- The comparison function of a side. -/
def cmpOf (ask : Bool) : Order → Order → Bool := if ask then minCmp else maxCmp

theorem key_lt (ask : Bool) (a b : Order) : key ask a < key ask b ↔
    (if ask then a.price < b.price else b.price < a.price) ∨
      a.price = b.price ∧ (a.timestamp < b.timestamp ∨ a.timestamp = b.timestamp ∧ b.amount < a.amount) := by
  cases ask <;> simp [key, Prod.Lex.toLex_lt_toLex]

theorem cmpOf_iff (ask : Bool) (a b : Order) : cmpOf ask a b = true ↔ key ask a < key ask b := by
  rw [key_lt]
  cases ask
  · simp only [cmpOf, maxCmp, tieCmp, Bool.false_eq_true, if_false]
    split
    · simp [*]
    · split
      · split
        · simp [*]
        · split <;> simp [*]
      · simp [*]
  · simp only [cmpOf, minCmp, tieCmp, if_true]
    split
    · simp [*]
    · split
      · split
        · simp [*]
        · split <;> simp [*]
      · simp [*]

theorem cmpOf_eq_false (ask : Bool) (a b : Order) : cmpOf ask a b = false ↔ key ask b ≤ key ask a := by
  rw [← not_lt, ← cmpOf_iff, Bool.not_eq_true]

/-- `cmp` never prefers the order with the larger key; it may look at more than the key. -/
structure Follows {κ : Type*} [LE κ] (cmp : Order → Order → Bool) (f : Order → κ) : Prop where
  of_true : ∀ a b, cmp a b = true → f a ≤ f b
  of_false : ∀ a b, cmp a b = false → f b ≤ f a

theorem follows_key (ask : Bool) : Follows (cmpOf ask) (key ask) :=
  ⟨fun a b h => le_of_lt ((cmpOf_iff ask a b).1 h), fun a b h => (cmpOf_eq_false ask a b).1 h⟩

theorem isExpired_eq (o : Order) (now : Nat) : isExpired o now = false := by
  unfold isExpired trimTime
  rw [decide_eq_false_iff_not]
  have : (now + 2 ^ 32 - o.timestamp) % 2 ^ 32 < 2 ^ 32 := Nat.mod_lt _ (by omega)
  omega

/-! ### Sifting -/

theorem swap_eq (d : Nat → Order) (a b : Nat) : swap d a b = d ∘ Equiv.swap a b := by
  funext i
  simp only [swap, comp_apply, Equiv.swap_apply_def]
  split
  · rfl
  · split <;> rfl

variable {κ : Type*} [LinearOrder κ] {f : Order → κ} {cmp : Order → Order → Bool} {ask : Bool} {d : Nat → Order}
  {h : Heap} {n i : Nat}

theorem siftUpLoop_spec (hc : Follows cmp f) {fuel : Nat} (hd : UpHole f d n i) (hf : i ≤ fuel) :
    Ordered f (siftUpLoop cmp fuel d i) n ∧ contents (siftUpLoop cmp fuel d i) n = contents d n := by
  induction fuel generalizing d i with
  | zero => exact ⟨hd.ordered fun h0 => by omega, rfl⟩
  | succ fuel ih =>
    simp only [siftUpLoop]
    by_cases h0 : 0 < i
    · have hp := parent_lt h0
      rw [if_pos h0]
      by_cases hb : cmp (d i) (d (parent i)) = true
      · rw [if_pos hb, swap_eq]
        obtain ⟨hord, hcont⟩ := ih (hd.swap h0 (hc.of_true _ _ hb)) (by omega)
        exact ⟨hord, hcont.trans (contents_swap hd.lt (Nat.lt_trans hp hd.lt))⟩
      · rw [if_neg hb]
        exact ⟨hd.ordered fun _ => hc.of_false _ _ (by simpa using hb), rfl⟩
    · rw [if_neg h0]
      exact ⟨hd.ordered fun h => absurd h h0, rfl⟩

/-- What `bestOf` picks is a child no worse than its parent and its sibling, if there is one that beats
the parent. -/
theorem bestOf_spec (hc : Follows cmp f) (h : Heap) (i : Nat) :
    (bestOf cmp h i = i ∧ ∀ c, 0 < c → c < h.size → parent c = i → f (h.data i) ≤ f (h.data c)) ∨
    (0 < bestOf cmp h i ∧ bestOf cmp h i < h.size ∧ parent (bestOf cmp h i) = i ∧
      f (h.data (bestOf cmp h i)) ≤ f (h.data i) ∧
      ∀ c, 0 < c → c < h.size → parent c = i → f (h.data (bestOf cmp h i)) ≤ f (h.data c)) := by
  have hchild : ∀ c, 0 < c → parent c = i → c = 2 * i + 1 ∨ c = 2 * i + 2 := fun c h0 hp =>
    (parent_eq_iff h0).1 hp
  have hl : parent (2 * i + 1) = i := (parent_eq_iff (by omega)).2 (.inl rfl)
  have hr : parent (2 * i + 2) = i := (parent_eq_iff (by omega)).2 (.inr rfl)
  have hle : ∀ {a b : Order}, ¬ cmp a b = true → f b ≤ f a := fun hn => hc.of_false _ _ (by simpa using hn)
  simp only [bestOf, Bool.and_eq_true, decide_eq_true_eq]
  by_cases h1 : 2 * i + 1 < h.size ∧ cmp (h.data (2 * i + 1)) (h.data i) = true
  · rw [if_pos h1]
    have hli := hc.of_true _ _ h1.2
    by_cases h2 : 2 * i + 2 < h.size ∧ cmp (h.data (2 * i + 2)) (h.data (2 * i + 1)) = true
    · rw [if_pos h2]
      have hrl := hc.of_true _ _ h2.2
      refine .inr ⟨by omega, h2.1, hr, hrl.trans hli, fun c h0 _ hp => ?_⟩
      rcases hchild c h0 hp with rfl | rfl
      · exact hrl
      · exact le_refl _
    · rw [if_neg h2]
      refine .inr ⟨by omega, h1.1, hl, hli, fun c h0 hlt hp => ?_⟩
      rcases hchild c h0 hp with rfl | rfl
      · exact le_refl _
      · exact hle fun hb => h2 ⟨hlt, hb⟩
  · rw [if_neg h1]
    by_cases h2 : 2 * i + 2 < h.size ∧ cmp (h.data (2 * i + 2)) (h.data i) = true
    · rw [if_pos h2]
      have hri := hc.of_true _ _ h2.2
      refine .inr ⟨by omega, h2.1, hr, hri, fun c h0 hlt hp => ?_⟩
      rcases hchild c h0 hp with rfl | rfl
      · exact hri.trans (hle fun hb => h1 ⟨hlt, hb⟩)
      · exact le_refl _
    · rw [if_neg h2]
      refine .inl ⟨rfl, fun c h0 hlt hp => ?_⟩
      rcases hchild c h0 hp with rfl | rfl
      · exact hle fun hb => h1 ⟨hlt, hb⟩
      · exact hle fun hb => h2 ⟨hlt, hb⟩

theorem siftDownLoop_size (cmp : Order → Order → Bool) (now fuel : Nat) (h : Heap) (i : Nat) :
    (siftDownLoop cmp now fuel h i).2 = 0 ∧ (siftDownLoop cmp now fuel h i).1.size = h.size := by
  induction fuel generalizing h i with
  | zero => exact ⟨rfl, rfl⟩
  | succ fuel ih =>
    simp only [siftDownLoop, isExpired_eq, Bool.and_false, Bool.false_eq_true, if_false]
    split
    · split
      · exact ih _ _
      · exact ⟨rfl, rfl⟩
    · exact ⟨rfl, rfl⟩

theorem Heap.pop_size (cmp : Order → Order → Bool) (now : Nat) (h : Heap) :
    (h.pop cmp now).2 = 0 ∧ (h.pop cmp now).1.size = h.size - 1 :=
  siftDownLoop_size cmp now _ _ _

theorem siftDownLoop_spec (hc : Follows cmp f) {fuel : Nat} (now : Nat) (hd : DownHole f h.data h.size i)
    (hf : h.size - i ≤ fuel) :
    Ordered f (siftDownLoop cmp now fuel h i).1.data h.size ∧
      contents (siftDownLoop cmp now fuel h i).1.data h.size = contents h.data h.size := by
  induction fuel generalizing h i with
  | zero =>
    refine ⟨hd.ordered fun c h0 hlt hp => ?_, rfl⟩
    have := parent_lt h0
    omega
  | succ fuel ih =>
    simp only [siftDownLoop, isExpired_eq, Bool.and_false, Bool.false_eq_true, if_false]
    by_cases hi : i < h.size
    · rw [if_pos hi]
      rcases bestOf_spec hc h i with ⟨hbest, hstop⟩ | ⟨h0, hlt, hp, hbeat, hmin⟩
      · rw [if_neg (by rw [hbest]; simp)]
        exact ⟨hd.ordered hstop, rfl⟩
      · have hgt : i < bestOf cmp h i := by have := parent_lt h0; omega
        rw [if_pos (Nat.ne_of_gt hgt)]
        have hswap := hd.swap h0 hlt hp hbeat hmin
        rw [← swap_eq] at hswap
        obtain ⟨hord, hcont⟩ := ih (h := { h with data := swap h.data i (bestOf cmp h i) })
          hswap (by show h.size - _ ≤ fuel; omega)
        refine ⟨hord, hcont.trans ?_⟩
        show contents (swap _ _ _) h.size = _
        rw [swap_eq]
        exact contents_swap hi hlt
    · rw [if_neg hi]
      refine ⟨hd.ordered fun c h0 hlt hp => ?_, rfl⟩
      have := parent_lt h0
      omega

/-! ### The operations -/

/-- The orders in the heap. -/
def Heap.orders (h : Heap) : Multiset Order := contents h.data h.size

/-- No order beats the one above it. -/
def Heap.Ordered (ask : Bool) (h : Heap) : Prop := BinHeap.Ordered (key ask) h.data h.size

theorem Heap.card_orders (h : Heap) : h.orders.card = h.size := card_contents

theorem Heap.push_sorted (hc : Follows cmp f) (hh : BinHeap.Ordered f h.data h.size) (val : Order) :
    BinHeap.Ordered f (h.push cmp val).data (h.push cmp val).size ∧ (h.push cmp val).orders = val ::ₘ h.orders := by
  have hcongr : ∀ j, j < h.size → Function.update h.data h.size val j = h.data j := fun j hj =>
    update_of_ne (Nat.ne_of_lt hj) _ _
  have hup : UpHole f (Function.update h.data h.size val) (h.size + 1) h.size :=
    BinHeap.Ordered.upHole (hh.congr hcongr)
  obtain ⟨hord, hcont⟩ := siftUpLoop_spec hc hup (Nat.le_refl _)
  refine ⟨hord, hcont.trans ?_⟩
  rw [contents_succ, update_self, contents_congr hcongr]
  rfl

theorem Heap.pop_sorted (hc : Follows cmp f) (hh : BinHeap.Ordered f h.data h.size) (h0 : h.size ≠ 0) (now : Nat) :
    BinHeap.Ordered f (h.pop cmp now).1.data (h.pop cmp now).1.size ∧
      h.orders = h.peek ::ₘ (h.pop cmp now).1.orders := by
  obtain ⟨m, hm⟩ : ∃ m, h.size = m + 1 := ⟨h.size - 1, by omega⟩
  have hsize : (h.drop 0).size = m := by show h.size - 1 = m; omega
  have hdata : (h.drop 0).data = Function.update h.data 0 (h.data m) := by
    show Function.update h.data 0 (h.data (h.size - 1)) = _
    rw [show h.size - 1 = m by omega]
  have hdown : DownHole f (h.drop 0).data (h.drop 0).size 0 := by
    rw [hdata, hsize]
    exact BinHeap.Ordered.downHole hh (by omega)
  obtain ⟨hord, hcont⟩ := siftDownLoop_spec hc now hdown (Nat.sub_le _ _)
  rw [Heap.orders, Heap.orders, (Heap.pop_size _ now h).2, show h.size - 1 = (h.drop 0).size from rfl]
  refine ⟨hord, ?_⟩
  show _ = h.peek ::ₘ contents (siftDownLoop cmp now (h.drop 0).size (h.drop 0) 0).1.data _
  rw [hcont, hdata, hsize, hm]
  cases m with
  | zero => rw [contents_succ]; rfl
  | succ m => exact contents_pop (Nat.succ_pos m)

theorem Heap.push_spec (hh : h.Ordered ask) (val : Order) :
    (h.push (cmpOf ask) val).Ordered ask ∧ (h.push (cmpOf ask) val).orders = val ::ₘ h.orders :=
  Heap.push_sorted (follows_key ask) hh val

theorem Heap.pop_spec (hh : h.Ordered ask) (h0 : h.size ≠ 0) (now : Nat) :
    (h.pop (cmpOf ask) now).1.Ordered ask ∧ h.orders = h.peek ::ₘ (h.pop (cmpOf ask) now).1.orders :=
  Heap.pop_sorted (follows_key ask) hh h0 now

theorem Heap.update_orders (h0 : h.size ≠ 0) (a : Int) :
    h.peek ::ₘ (h.update a).orders = { h.peek with amount := short a } ::ₘ h.orders :=
  contents_update (Nat.pos_of_ne_zero h0)

theorem Heap.peek_mem (h0 : h.size ≠ 0) : h.peek ∈ h.orders :=
  mem_contents.2 ⟨0, Nat.pos_of_ne_zero h0, rfl⟩

theorem Heap.peek_le (hh : h.Ordered ask) : ∀ o ∈ h.orders, key ask h.peek ≤ key ask o := by
  intro o ho
  obtain ⟨j, hj, rfl⟩ := mem_contents.1 ho
  exact BinHeap.Ordered.root_le hh j hj

end HftSim.Golden
