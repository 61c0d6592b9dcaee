import HftSim.Lib.Arrival
import HftSim.TopIdle
import HftSim.TopLanes

/-!
# Price-time priority by arrival

An engine orders its resting orders by the timestamp it sampled when it took them, a 32-bit counter. As
long as an order is taken with a timestamp above those of the resting orders at its price, these trade
in the order in which the engine took them; runs of fewer than `2 ^ 32` cycles always do. When the
counter has wrapped around, an order that rests from before it comes after the ones that follow.
-/

namespace HftSim

open PriceTime

namespace EngineSys

variable {n : Nat} {s : EngineSys} {c : EngineCycle} {k : HeapKind} {g : HeapKind → HeapGhost}
  {ok : (Bool → Multiset Node) → Node → Prop} {ps : List (Bool → Node)}

theorem Inv.trading_match (h : s.Inv n ok ps g) (ht : s.eng.trading = true) :
    ∃ m, s.Led ok ps m ∧ nodeOps.Match m s.snaps := by
  have hc := h.ctrl
  suffices hd : ∃ d, s.Deal ok ps g d by
    obtain ⟨d, hd⟩ := hd
    obtain ⟨m, hled, hm, -⟩ := hd.led
    exact ⟨m, hled, hm⟩
  cases hst : s.eng.tstate <;> simp only [Ctrl, hst] at hc <;>
    first
    | exact ⟨_, hc⟩
    | exact ⟨_, hc.1⟩
    | simp [SymbolEngine.trading, dealing, hst] at ht

theorem Inv.decided (h : s.Inv n ok ps g) : ∃ ps' m, TrailIf nodeOps ok s.orders ps' m ∧
    ps'.map Top.pairOf = ps.map Top.pairOf ++ s.eng.pendingDeal := by
  unfold SymbolEngine.pendingDeal
  by_cases ht : s.eng.trading = true
  · obtain ⟨m, hled, hm⟩ := h.trading_match ht
    refine ⟨ps ++ [s.snaps], _, hled.1.trade hm, ?_⟩
    rw [if_pos ht, List.map_append]
    rfl
  · obtain ⟨m, hled⟩ := h.led
    exact ⟨ps, m, hled.1, by rw [if_neg ht, List.append_nil]⟩

end EngineSys

namespace Top

variable {s : Top} {h : History} {i : TopIn} {e : Fin 8}

/-- The deals trade the orders taken, at every price the earlier ones first. -/
def ByArrival (orders : List Node) (deals : List (Node × Node)) : Prop :=
  ∃ qs, (unlabelled qs).map pairOf = deals ∧ nodeOps.InOrder orders qs

/-- As long as no slot of the MMU is handed out twice and every order is taken with a timestamp above
those of the resting orders of its side and price, each engine trades the orders at one price in the
order in which it has taken them: an order is filled before a later one trades. -/
theorem arrival_priority (is : List TopIn) (hf : Along Unused is) (hy : Along (Takes nodeOps.Younger) is) (e : Fin 8) :
    ByArrival ((run is).2.orders e) ((run is).2.deals e) := by
  obtain ⟨ps, g, hinv, hdeals⟩ := (run_linked _ is hf hy).eng e
  obtain ⟨ps', m, htrail, hps⟩ := hinv.decided
  obtain ⟨qs, hqs, hin⟩ := htrail.inOrder nodeOps_lawful
  exact ⟨qs, by rw [hqs, hps, hdeals]; rfl, hin⟩

/-! ### Before the counter wraps around -/

theorem younger_of_short (is : List TopIn) (hlen : is.length < 2 ^ 32) (hf : Along Unused is) :
    Along (Takes nodeOps.Younger) is := by
  intro js j hp _ e ht y hy _
  have hjs : js <+: is := (List.prefix_append _ _).trans hp
  have hk := run_linked (fun _ _ => True) js (fun ks k hks => hf ks k (hks.trans hjs)) fun _ _ _ _ _ _ => trivial
  obtain ⟨ps, g, hinv, -⟩ := hk.eng e
  have hidle : ((run js).1.eng e).tstate = .idle := by
    simp only [SymbolEngine.takesOrder, Bool.and_eq_true, decide_eq_true_iff] at ht; exact ht.1
  obtain ⟨x, hx, hstamp⟩ := (hinv.idle_trail hidle).1.stamp_mem nodeOps_lawful hy
  have hpast := (run_past js (Nat.lt_of_le_of_lt hjs.length_le hlen)).1 e x hx
  rw [hstamp]
  simpa [nodeOps] using hpast

/-- Lane 0 gets two bids and an ask at price 5. -/
def loadThree : List TopIn :=
  (List.range 14).map fun t => ⟨0xF,
    if t = 3 then some ⟨0, 1⟩
    else if t = 5 then some ⟨2, hftDispPackOrderWord ⟨1, 5, 3⟩⟩
    else if t = 6 then some ⟨2, hftDispPackOrderWord ⟨1, 5, 2⟩⟩
    else if t = 7 then some ⟨2, hftDispPackOrderWord ⟨0, 5, 4⟩⟩
    else none⟩

/-- `begin_dispatch`, and time for the orders to be matched. -/
def dispatch : List TopIn := (List.range 50).map fun t => ⟨0xF, if t = 0 then some ⟨0, 2⟩ else none⟩

/-- Dispatched at once, the first bid trades before the second one. -/
theorem arrival_priority_loadThree : ((run (loadThree ++ dispatch)).2.deals 0).length = 2 ∧
    ByArrival ((run (loadThree ++ dispatch)).2.orders 0) ((run (loadThree ++ dispatch)).2.deals 0) := by
  have hun := (unused_of_keys (loadThree ++ dispatch) (by decide)).1
  exact ⟨by decide +kernel, arrival_priority _ hun (younger_of_short _ (by decide) hun) 0⟩

/-! ### After it has -/

theorem loadThree_waiting : (run loadThree).1.Waiting (run loadThree).2 where
  rst := by decide +kernel
  key := by decide +kernel
  pulses := by decide +kernel
  push := by decide +kernel
  logPulses := by decide +kernel
  logPipe := by decide +kernel
  disp := by decide +kernel
  fifo := by decide +kernel
  tstate := by decide +kernel
  heaps := by decide +kernel
  mem := ⟨by decide +kernel, by decide +kernel, by decide +kernel, by decide +kernel, by decide +kernel,
    by decide +kernel⟩
  pend := by decide +kernel

/-- The second order of three has traded and the first one, a bid at the same price, has not. -/
def Overtaken (orders : List Node) (deals : List (Node × Node)) : Bool :=
  match orders, deals with
  | [a, b, c], d :: _ => decide (orderType a = true ∧ orderType c = false ∧ orderTs d.1 ≠ orderTs a ∧
      orderTs d.1 = orderTs b ∧ orderPrice d.1 = orderPrice a ∧ orderAmount a ≠ 0)
  | _, _ => false

theorem Overtaken.not_byArrival {orders : List Node} {deals : List (Node × Node)} (ho : Overtaken orders deals = true) :
    ¬ ByArrival orders deals := by
  rintro ⟨qs, hdeals, hin⟩
  unfold Overtaken at ho
  split at ho
  · rename_i a b c d ds
    rw [decide_eq_true_iff] at ho
    obtain ⟨h1, h2, h3, -, h5, h6⟩ := ho
    obtain ⟨q, qs, rfl⟩ : ∃ q qs', qs = q :: qs' := by
      cases qs with
      | nil => cases hdeals
      | cons q qs => exact ⟨q, qs, rfl⟩
    have hd : (q true).2 = d.1 := congrArg (fun l : List (Node × Node) => (l.head?.getD d).1) hdeals
    obtain ⟨x, hx, hbid, -, hts, -⟩ := hin.own 0 q rfl true
    rw [hd] at hts
    have hts : orderTs d.1 = orderTs x := BitVec.eq_of_toNat_eq hts
    have hlabel : 0 < (q true).1 := by
      rcases Nat.eq_zero_or_pos (q true).1 with h0 | h0
      · rw [h0] at hx
        cases hx
        exact absurd hts h3
      · exact h0
    have hfill := hin.first 0 q rfl true 0 a hlabel rfl h1 (by rw [hd]; exact congrArg BitVec.toNat h5.symm)
    exact h6 (BitVec.eq_of_toNat_eq hfill.symm)
  · cases ho

/-- With `2 ^ 32 - 20` idle cycles between loading and dispatching, the second bid is taken with a smaller
timestamp than the first one and trades before it. -/
theorem wrapped_overtakes : ¬ ∀ is e, (∀ i ∈ is, i.key.getLsbD 0 = true) →
    ByArrival ((run is).2.orders e) ((run is).2.deals e) := by
  intro hall
  have hload : ∀ i ∈ loadThree, i.key.getLsbD 0 = true := by decide
  have hdisp : ∀ i ∈ dispatch, i.key.getLsbD 0 = true := by decide
  have hkeys : ∀ i ∈ loadThree ++ List.replicate (2 ^ 32 - 20) noInput ++ dispatch, i.key.getLsbD 0 = true := by
    intro i hi
    rcases List.mem_append.1 hi with hi | hi
    · rcases List.mem_append.1 hi with hi | hi
      · exact hload i hi
      · rw [(List.mem_replicate.1 hi).2]; rfl
    · exact hdisp i hi
  have hrun : run (loadThree ++ List.replicate (2 ^ 32 - 20) noInput ++ dispatch) = dispatch.foldl next
      ({ (run loadThree).1 with nowTs := (run loadThree).1.nowTs + BitVec.ofNat 32 (2 ^ 32 - 20) },
        (run loadThree).2) := by
    rw [← run_wait _ loadThree_waiting, run, List.foldl_append]
    rfl
  have hbad := hall _ 0 hkeys
  rw [hrun] at hbad
  exact Overtaken.not_byArrival (by decide +kernel) hbad

end Top

end HftSim
