import HftSim.EngineRefines
import HftSim.Golden.Refines

/-!
# The hardware and the golden model agree

Both refine the same order book on lists of orders that differ only in their timestamps, and the
prices and amounts of the trades and of the resting orders do not depend on these
(`runOrders_alike`).
-/

namespace HftSim

open PriceTime Golden

/-- What the two systems have in common of an order. -/
structure Face where
  isBid : Bool
  price : Int
  amount : Int
deriving DecidableEq, Repr

def nodeFace (n : Node) : Face := ⟨orderType n, (orderPrice n).toNat, (orderAmount n).toNat⟩

def orderFace (o : Order) : Face := ⟨!o.type, o.price, o.amount⟩

/-- The price and amount of a node. -/
def nodeTrade (n : Node) : Trade := ⟨(orderPrice n).toNat, (orderAmount n).toNat⟩

/-- Prices and quantities in `0 .. 32767`. -/
def Face.InRange (f : Face) : Prop := 0 ≤ f.price ∧ f.price ≤ 32767 ∧ 0 ≤ f.amount ∧ f.amount ≤ 32767

theorem similar_of_face {x : Node} {y : Order} (h : nodeFace x = orderFace y) :
    Similar nodeOps orderOps x y ∧ nodeOps.isBid x = orderOps.isBid y := by
  injection h with h1 h2 h3
  refine ⟨⟨?_, ?_⟩, h1⟩
  · simp only [nodeOps, orderOps]; omega
  · simp only [nodeOps, orderOps]; omega

theorem nodeTrade_of_similar {x : Node} {y : Order} (h : Similar nodeOps orderOps x y) (hp : 0 ≤ y.price)
    (ha : 0 ≤ y.amount) : nodeTrade x = tradeOf y := by
  obtain ⟨h1, h2⟩ := h
  simp only [nodeOps, orderOps] at h1 h2
  simp only [nodeTrade, tradeOf, Trade.mk.injEq]
  omega

theorem map_nodeTrade {l : List Node} {l' : List Order} (h : List.Forall₂ (Similar nodeOps orderOps) l l')
    (hpos : ∀ y ∈ l', 0 ≤ y.price ∧ 0 ≤ y.amount) : l.map nodeTrade = l'.map tradeOf := by
  induction h with
  | nil => rfl
  | cons hxy _ ih =>
    rw [List.map_cons, List.map_cons, nodeTrade_of_similar hxy (hpos _ (by simp)).1 (hpos _ (by simp)).2,
      ih fun y hy => hpos y (by simp [hy])]

variable {σ : Type*} [DecidableEq σ]

/-- On the same orders the two references make the same trades and leave the same orders. -/
theorem runOrders_face {xs : List Node} {ys : List Order} (hsame : xs.map nodeFace = ys.map orderFace)
    (hxs : nodeOps.Aged xs) (hys : orderOps.Aged ys) (hpos : ∀ y ∈ ys, y.Admitted) :
    (runOrders nodeOps xs).1.map nodeTrade = (runOrders orderOps ys).1.map tradeOf ∧
      (runOrders nodeOps xs).2.bids.map nodeTrade = (runOrders orderOps ys).2.bids.map tradeOf ∧
      (runOrders nodeOps xs).2.asks.map nodeTrade = (runOrders orderOps ys).2.asks.map tradeOf := by
  have hpairs : List.Forall₂ (fun x y => Similar nodeOps orderOps x y ∧ nodeOps.isBid x = orderOps.isBid y) xs ys := by
    have := List.forall₂_eq_eq_eq ▸ hsame
    rw [List.forall₂_map_left_iff, List.forall₂_map_right_iff] at this
    exact this.imp fun _ _ h => similar_of_face h
  obtain ⟨h1, h2⟩ := runOrders_alike nodeOps_lawful orderOps_lawful hpairs hxs hys
  have hset : ∀ (y : Order) (a : Nat), 0 ≤ y.price ∧ 0 ≤ y.amount →
      0 ≤ (orderOps.setAmount y a).price ∧ 0 ≤ (orderOps.setAmount y a).amount := fun y a hy =>
    ⟨hy.1, Int.natCast_nonneg a⟩
  obtain ⟨p1, p2, p3⟩ := runOrders_forall hset ys fun y hy => ⟨(hpos y hy).1, (hpos y hy).2.1⟩
  exact ⟨map_nodeTrade h1 p1, map_nodeTrade h2.bids p2, map_nodeTrade h2.asks p3⟩

theorem stored_face {s : EngineSys} {n : Nat} {k : HeapKind} {l : List Node} {l' : List Order}
    (hs : s.stored n k = ↑l) (hl : l.map nodeTrade = l'.map tradeOf) :
    (s.stored n k).map nodeTrade = (l' : Multiset Order).map tradeOf := by
  rw [hs, Multiset.map_coe, Multiset.map_coe, hl]

theorem resting_eq {s : Sim σ} {symbol : σ} {ob : OrderBook} {ask : Bool} {l : List Order}
    (hbooks : Sim.findOrCreateBook s.books symbol = [(symbol, ob)])
    (hl : (if ask then ob.asks else ob.bids).orders = ↑l) : s.resting ask = ↑l := by
  unfold Sim.findOrCreateBook at hbooks
  split at hbooks
  · rw [← hl, Sim.resting, hbooks]; simp
  · have hnil : s.books = [] := by
      have := congrArg List.length hbooks
      rw [List.length_append] at this
      exact List.length_eq_zero_iff.1 (by simpa using this)
    rw [hnil, List.nil_append] at hbooks
    injection hbooks with hob
    injection hob with _ hob
    rw [← hl, Sim.resting, hnil, ← hob]
    cases ask <;> rfl

open EngineSys in
/-- The engine and the golden model, each given the same sides, prices and quantities under strictly
increasing timestamps of its own, report the same trades and end with the same resting orders. -/
theorem engine_agrees_with_golden (n : Nat) (m : PrivBram) (sched : List EngineCycle) (symbol : σ)
    (subs : List (Submission σ))
    (hsame : (run n m sched).orders.map nodeFace = (subs.map Submission.order).map orderFace)
    (hsym : ∀ sub ∈ subs, sub.symbol = symbol)
    (hrange : ∀ sub ∈ subs, (orderFace sub.order).InRange)
    (hts : nodeOps.Aged (run n m sched).orders)
    (hts' : orderOps.Aged (subs.map Submission.order))
    (hacc : Sim.NoReject subs)
    (hcap : ∀ p, p <+: sched → ∀ k, ((run n m p).eng.heap k).size ≤ 1024)
    (hidle : (run n m sched).eng.tstate = .idle) :
    (run n m sched).trades.map nodeTrade = (Sim.run subs).log.map Prod.snd ∧
      ((run n m sched).stored n .maxHeap).map nodeTrade = ((Sim.run subs).resting false).map tradeOf ∧
      ((run n m sched).stored n .minHeap).map nodeTrade = ((Sim.run subs).resting true).map tradeOf := by
  have hadm : ∀ sub ∈ subs, sub.order.Admitted := by
    intro sub hsub
    obtain ⟨h1, -, h3, h4⟩ := hrange sub hsub
    exact ⟨h1, h3, by simp only [orderFace] at h4; omega⟩
  obtain ⟨ps, g, hinv⟩ := run_inv sched hcap
  obtain ⟨ht, hb, ha⟩ := hinv.idle_eq hts hidle
  obtain ⟨ob, hbooks, hob, hoa, hlog⟩ := Sim.run_sync hsym hadm hts' hacc
  obtain ⟨f1, f2, f3⟩ := runOrders_face hsame hts hts' fun y hy => by
    obtain ⟨sub, hsub, rfl⟩ := List.mem_map.1 hy
    exact hadm sub hsub
  have hrb : (Sim.run subs).resting false = _ := resting_eq hbooks hob.orders
  have hra : (Sim.run subs).resting true = _ := resting_eq hbooks hoa.orders
  refine ⟨?_, ?_, ?_⟩
  · rw [ht, f1, hlog, List.map_map]; rfl
  · rw [hrb]; exact stored_face hb f2
  · rw [hra]; exact stored_face ha f3

/-- The orders of `EngineSys.buyThenSell`, in the golden model. -/
def goldenBuyThenSell : List (Submission Nat) :=
  [⟨0, ⟨5, 1, 3, false⟩, fun _ => 0⟩, ⟨0, ⟨5, 2, 2, true⟩, fun _ => 0⟩]

open EngineSys in
theorem engine_agrees_with_golden_buyThenSell :
    (Sim.run goldenBuyThenSell).log = [(0, ⟨5, 2⟩)] ∧
      (run 0 ⟨fun _ => 0, 0⟩ buyThenSell).trades.map nodeTrade = (Sim.run goldenBuyThenSell).log.map Prod.snd ∧
      ((run 0 ⟨fun _ => 0, 0⟩ buyThenSell).stored 0 .maxHeap).map nodeTrade =
        ((Sim.run goldenBuyThenSell).resting false).map tradeOf := by
  obtain ⟨h1, h2, -⟩ := engine_agrees_with_golden 0 ⟨fun _ => 0, 0⟩ buyThenSell 0 goldenBuyThenSell
    (by decide +kernel) (by decide) (by unfold Face.InRange; decide) buyThenSell_aged
    (by unfold Ops.Aged; decide) (by decide +kernel) buyThenSell_cap buyThenSell_idle
  exact ⟨by decide +kernel, h1, h2⟩

end HftSim
