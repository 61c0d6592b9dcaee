import HftSim.TopBooks
import HftSim.Golden.Agree
import HftSim.Golden.Symbols

/-!
# The design and the golden simulator agree

The golden simulator runs all symbols in one process with shared memory, the design one engine for each. On the
same orders lane by lane, in whatever order the simulator gets those of different symbols, the log at
`trade_done` has the simulator's trades of every symbol.
-/

namespace HftSim

open PriceTime Golden

/-- The side, the price and the quantity of a dispatched order. -/
def dispatchFace (d : DispatchOrder) : Face :=
  ⟨d.getLsbD 31, (d.extractLsb' 15 16).toNat, (d.extractLsb' 0 15).toNat⟩

theorem nodeFace_packOrder (d : DispatchOrder) (symbol : BitVec 21) (nowTs : BitVec 32) :
    nodeFace (packOrder d symbol nowTs) = dispatchFace d := by
  simp only [nodeFace, dispatchFace, orderType_packOrder, orderPrice_packOrder, orderAmount_packOrder,
    BitVec.toNat_append]
  simp

namespace Top

variable {is : List TopIn} {e : Fin 8}

theorem Stamped.faces {ds : List DispatchOrder} {os : List Node} (h : Stamped e ds os) :
    os.map nodeFace = ds.map dispatchFace := by
  obtain ⟨hp, -⟩ := h
  induction hp with
  | nil => rfl
  | cons hx _ ih => rw [List.map_cons, List.map_cons, ih, hx, nodeFace_packOrder]

/-- The book of an engine and the book of the simulator on the same orders. -/
theorem Stamped.golden {σ : Type*} [DecidableEq σ] {symbol : σ} {ds : List DispatchOrder} {os : List Node}
    {subs : List (Submission σ)} (h : Stamped e ds os) (hadm : ∀ sub ∈ subs, sub.order.Admitted)
    (hds : ds.map dispatchFace = (Sim.ordersOf subs symbol).map orderFace)
    (hts : orderOps.Aged (Sim.ordersOf subs symbol)) (hacc : Sim.NoReject subs) :
    (runOrders nodeOps os).1.map nodeTrade = (Sim.run subs).logOf symbol ∧
      ((runOrders nodeOps os).2.bids : Multiset Node).map nodeTrade =
        ((Sim.run subs).book symbol).bids.orders.map tradeOf ∧
      ((runOrders nodeOps os).2.asks : Multiset Node).map nodeTrade =
        ((Sim.run subs).book symbol).asks.orders.map tradeOf := by
  have hf := Sim.run_follows hadm hts
  rw [Sim.stored_of_noReject hacc] at hf
  have hadm' : ∀ o ∈ Sim.ordersOf subs symbol, o.Admitted := fun o ho => by
    obtain ⟨sub, hsub, rfl⟩ := List.mem_map.1 ho
    exact hadm sub (List.mem_filter.1 hsub).1
  obtain ⟨f1, f2, f3⟩ := runOrders_face (h.faces.trans hds) h.aged hts hadm'
  rw [hf.log, hf.bids.orders, hf.asks.orders]
  simp only [Multiset.map_coe, f1, f2, f3, and_self]

end Top

end HftSim
