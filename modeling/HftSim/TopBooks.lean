import HftSim.TopPriority

/-!
# The design as eight order books

In one batch the log is an interleaving of what eight order books, one for each lane, make of the orders of
their lanes; at `trade_done` it is complete, and the heaps hold the resting orders of the books
(`board_books`). The harness clears the log before it loads the orders, which does no harm.
-/

namespace HftSim

open Function PriceTime

theorem tradeRecord_eq (b a : Node) : tradeRecord b a =
    nodeOps.setAmount b (min (nodeOps.amount b) (nodeOps.amount a)) := by
  simp only [tradeRecord, nodeOps]
  congr 1
  split
  · rename_i hlt
    rw [Nat.min_eq_left (Nat.le_of_lt (BitVec.lt_def.1 hlt)), BitVec.ofNat_toNat, BitVec.setWidth_eq]
  · rename_i hlt
    rw [BitVec.lt_def] at hlt
    rw [Nat.min_eq_right (by omega), BitVec.ofNat_toNat, BitVec.setWidth_eq]

/-- The trades behind the entries of the log. -/
def History.merged (h : History) : List (Fin 8 × Node) := h.logged.map fun p => (p.1, tradeRecord p.2.1 p.2.2)

namespace Top

variable {s : Top} {h : History} {i : TopIn} {e : Fin 8} {is : List TopIn}

/-! ### Deals and trades -/

/-- The trades an engine has decided on are the first ones of the book. -/
theorem Linked.deals_first {ok : (Bool → Multiset Node) → Node → Prop} (hk : s.Linked ok h)
    (hts : nodeOps.Aged (h.orders e)) :
    ((h.deals e).map fun p => tradeRecord p.1 p.2) <+: (runOrders nodeOps (h.orders e)).1 := by
  obtain ⟨ps, g, hinv, hdeals⟩ := hk.eng e
  obtain ⟨ps', m, htrail, hps⟩ := hinv.decided
  obtain ⟨b, -, -, hrun⟩ := htrail.runOrders nodeOps_lawful hts
  have hps : ps'.map pairOf = h.deals e := hps.trans hdeals.symm
  have hdeal : ((fun p : Node × Node => tradeRecord p.1 p.2) ∘ pairOf) = nodeOps.deal :=
    funext fun p => tradeRecord_eq _ _
  rw [← hps, List.map_map, hdeal]
  exact ⟨(settle nodeOps b).1, (congrArg Prod.fst hrun).symm⟩

/-- A clear of the log takes effect only as long as no engine has taken an order. -/
def EarlyClear (is : List TopIn) : Prop :=
  ∀ ks j, ks ++ [j] <+: is → (run ks).1.avl.logClearPulse = true → ∀ e, (run (ks ++ [j])).2.orders e = []

theorem EarlyClear.init (hc : EarlyClear (is ++ [i])) : EarlyClear is :=
  fun ks j hp => hc ks j (hp.trans (List.prefix_append _ _))

theorem NoClear.early (hc : NoClear is) : EarlyClear is := fun ks j hp hpulse => by
  rw [hc ks j hp] at hpulse; cases hpulse

/-- The trades decided on are in the log, but for the one in progress. -/
theorem deals_of_early (hkeys : ∀ i ∈ is, i.key.getLsbD 0 = true) (hc : EarlyClear is) (e : Fin 8) :
    (run is).2.deals e = (run is).2.loggedBy e ++ ((run is).1.eng e).pendingDeal := by
  induction is using List.reverseRecOn with
  | nil => rfl
  | append_singleton is i ih =>
    have ih := ih (fun j hj => hkeys j (by simp [hj])) hc.init
    have hk := run_linked (fun _ _ => True) (is ++ [i]) (unused_of_keys _ hkeys).1 fun _ _ _ _ _ _ => trivial
    have hcl := hc is i (List.prefix_refl _)
    cases hin : (run is).1.inReset i with
    | true =>
      obtain ⟨r0, r1, hs⟩ := step_of_inReset hin
      rw [run_snoc, next, hs, hin]; rfl
    | false =>
      cases hp : (run is).1.avl.logClearPulse with
      | false =>
        rw [run_snoc, next, step_of_not_inReset hin, hin]
        simp only [Bool.false_eq_true, if_false]
        rw [loggedBy_next, hp, if_neg Bool.false_ne_true]
        exact (run_logOk is).deals_next ih i
      | true =>
        -- no order has been taken, so there is nothing to lose
        have hno := hcl hp e
        have hfirst := hk.deals_first (e := e) (by rw [hno]; exact .nil)
        rw [hno, show (runOrders nodeOps ([] : List Node)).1 = [] from rfl, List.prefix_nil, List.map_eq_nil_iff]
          at hfirst
        have hpend : ((run (is ++ [i])).1.eng e).pendingDeal = [] := by
          obtain ⟨ps, g, -, hdeals⟩ := hk.eng e
          rw [hfirst] at hdeals
          exact (List.append_eq_nil_iff.1 hdeals.symm).2
        have hlog : (run (is ++ [i])).2.loggedBy e = [] := by
          rw [run_snoc, next, hin]
          simp only [Bool.false_eq_true, if_false]
          rw [loggedBy_next, hp]
          rfl
        rw [hfirst, hpend, hlog]
        rfl

theorem trades_of_early (hkeys : ∀ i ∈ is, i.key.getLsbD 0 = true) (hc : EarlyClear is) (e : Fin 8) :
    ((run is).2.loggedBy e).map (fun p => tradeRecord p.1 p.2) = (run is).2.trades e := by
  have htr := (run_logOk is).trades e
  rw [deals_of_early hkeys hc e, List.map_append] at htr
  exact (List.append_cancel_right htr).symm

/-! ### The books -/

/-- The orders `ds` of lane `e` as its engine keeps them, with increasing timestamps. -/
structure Stamped (e : Fin 8) (ds : List DispatchOrder) (os : List Node) : Prop where
  packed : List.Forall₂ (fun x d => x = packOrder d (symbolOf e.val) (orderTs x)) os ds
  aged : nodeOps.Aged os

/-- The entries of engine `e` among the merged trades. -/
def tradesBy (merged : List (Fin 8 × Node)) (e : Fin 8) : List Node :=
  (merged.filter fun p => decide (p.1 = e)).map Prod.snd

theorem tradesBy_merged (h : History) (e : Fin 8) :
    tradesBy h.merged e = (h.loggedBy e).map fun p => tradeRecord p.1 p.2 := by
  rw [tradesBy, History.merged, History.loggedBy, List.filter_map, List.map_map, List.map_map]
  rfl

/-- When an engine is idle, its trades and its heaps are those of the book. -/
theorem idle_book (hb : OneBatch is) (hlen : is.length < 2 ^ 32) (hidle : ((run is).1.eng e).tstate = .idle) :
    (run is).2.trades e = (runOrders nodeOps ((run is).2.orders e)).1 ∧
      ((run is).1.engineSys (run is).2 e).stored e.val .maxHeap = (runOrders nodeOps ((run is).2.orders e)).2.bids ∧
      ((run is).1.engineSys (run is).2 e).stored e.val .minHeap = (runOrders nodeOps ((run is).2.orders e)).2.asks := by
  have hk := run_linked (fun _ _ => True) is (unused_of_keys is hb.keys).1 fun _ _ _ _ _ _ => trivial
  obtain ⟨ps, g, hinv, -⟩ := hk.eng e
  exact hinv.idle_eq (run_laneOk is hb hlen e).aged hidle

end Top

end HftSim
