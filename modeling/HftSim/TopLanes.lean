import HftSim.TopBatch
import HftSim.TopEngine

/-!
# Lanes do not interfere

In a batch the trades of an engine are a function of the orders of its lane: they are the first trades
of the order book run on these orders, and prices and amounts in the book do not depend on the
timestamps as long as these increase. The other engines only decide when the trades come.
-/

namespace HftSim

open PriceTime

namespace Top

variable {s : Top} {h : History} {i : TopIn} {e : Fin 8}

/-- One batch since power-up: no reset, and `clear_done` is not written in `DONE`. -/
structure OneBatch (is : List TopIn) : Prop where
  keys : ∀ i ∈ is, i.key.getLsbD 0 = true
  kept : Along (fun s _ => ¬ (s.disp.state = .done ∧ s.avl.dispClearDonePulse = true)) is

theorem OneBatch.init {is : List TopIn} (hb : OneBatch (is ++ [i])) : OneBatch is :=
  ⟨fun j hj => hb.keys j (by simp [hj]), hb.kept.init.1⟩

theorem clearDonePulse_step (s : Top) (i : TopIn) :
    (s.step i).avl.dispClearDonePulse = true → busBit i.write addrControl 2 = true := by
  unfold step
  split
  · intro hc; cases hc
  · split
    · intro hc; cases hc
    · exact id

theorem oneBatch_of_writes {is : List TopIn}
    (hw : ∀ i ∈ is, i.key.getLsbD 0 = true ∧ busBit i.write addrControl 2 = false) : OneBatch is := by
  refine ⟨fun i hi => (hw i hi).1, fun js j hp _ hc => ?_⟩
  rcases List.eq_nil_or_concat js with rfl | ⟨js, k, rfl⟩
  · exact Bool.false_ne_true hc.2
  · rw [List.concat_eq_append] at hp hc
    rw [run_snoc] at hc
    have hk : k ∈ is := hp.subset (by simp)
    exact absurd (clearDonePulse_step _ _ hc.2) (by simp [(hw k hk).2])

/-- The dispatcher has left `IDLE` only if the design is out of reset. -/
theorem awake_of_keys {is : List TopIn} (hkeys : ∀ i ∈ is, i.key.getLsbD 0 = true)
    (hd : (run is).1.disp.state ≠ .idle) : (run is).1.rstPipe1 = true := by
  rcases List.eq_nil_or_concat is with rfl | ⟨js, j, rfl⟩
  · exact absurd rfl hd
  · rw [List.concat_eq_append] at hkeys hd ⊢
    rw [run_snoc, next] at hd ⊢
    cases hin : (run js).1.inReset j with
    | true =>
      obtain ⟨r0, r1, hs⟩ := step_of_inReset hin
      rw [hs] at hd
      exact absurd rfl hd
    | false =>
      rw [step_of_not_inReset hin]
      simp only [inReset, Bool.or_eq_false_iff, Bool.not_eq_false'] at hin
      exact (unused_of_keys js fun k hk => hkeys k (by simp [hk])).2.2.1 hin.2

theorem run_past (is : List TopIn) (hlen : is.length < 2 ^ 32) :
    (∀ e, ∀ x ∈ (run is).2.orders e, nodeOps.stamp x < (run is).1.nowTs.toNat) ∧
      (run is).1.nowTs.toNat ≤ is.length := by
  induction is using List.reverseRecOn with
  | nil => exact ⟨fun e x hx => (by cases hx), Nat.le_refl _⟩
  | append_singleton is i ih =>
    rw [List.length_append, List.length_singleton] at hlen ⊢
    obtain ⟨hpast, hnow⟩ := ih (by omega)
    rw [run_snoc, next]
    cases hin : (run is).1.inReset i with
    | true =>
      obtain ⟨r0, r1, hs⟩ := step_of_inReset hin
      rw [hs]
      exact ⟨fun e x hx => (by cases hx), Nat.zero_le _⟩
    | false =>
      rw [step_of_not_inReset hin]
      have htick : ((run is).1.tick i).nowTs.toNat = (run is).1.nowTs.toNat + 1 := by
        show ((run is).1.nowTs + 1).toNat = _
        rw [BitVec.toNat_add]
        exact Nat.mod_eq_of_lt (by simp; omega)
      refine ⟨fun e x hx => ?_, htick.trans_le (Nat.succ_le_succ hnow)⟩
      rw [htick]
      simp only [Bool.false_eq_true, if_false, History.next] at hx
      split at hx
      · rcases List.mem_append.1 hx with hx | hx
        · exact Nat.lt_succ_of_lt (hpast e x hx)
        · rw [List.mem_singleton.1 hx]
          simp [nodeOps]
      · exact Nat.lt_succ_of_lt (hpast e x hx)

/-- The orders an engine has taken are those its lane has handed out, with increasing timestamps. -/
structure LaneOk (h : History) (e : Fin 8) : Prop where
  taken : List.Forall₂ (fun x d => x = packOrder d (symbolOf e.val) (orderTs x)) (h.orders e) (h.batch.accepted e)
  aged : nodeOps.Aged (h.orders e)

theorem LaneOk.next (hl : LaneOk h e) (hpast : ∀ x ∈ h.orders e, nodeOps.stamp x < s.nowTs.toNat)
    (hkept : ¬ (s.disp.state = .done ∧ s.avl.dispClearDonePulse = true)) : LaneOk (h.next s) e := by
  have hacc : (h.next s).batch.accepted e = h.batch.accepted e ++ s.disp.hands s.dispIn e := by
    have hkept : ¬ (s.disp.state = .done ∧ s.dispIn.swClearDone = true) := hkept
    show (h.batch.next s.disp s.dispIn).accepted e = _
    rw [Batch.next, if_neg hkept]
  have hords : (h.next s).orders e = h.orders e ++
      (s.disp.hands s.dispIn e).map fun d => packOrder d (symbolOf e.val) s.nowTs := by
    have hb : (s.disp.orderOutValid e && s.dispIn.orderInReady e) = (s.eng e).takesOrder (s.engineIn e) := by
      rw [Bool.and_comm]; rfl
    simp only [History.next, OrderDispatcher.hands, hb]
    split <;> simp
  have hnew : ∀ x ∈ (s.disp.hands s.dispIn e).map fun d => packOrder d (symbolOf e.val) s.nowTs,
      nodeOps.stamp x = s.nowTs.toNat := by
    intro x hx
    obtain ⟨d, -, rfl⟩ := List.mem_map.1 hx
    simp [nodeOps]
  have hone : nodeOps.Aged ((s.disp.hands s.dispIn e).map fun d => packOrder d (symbolOf e.val) s.nowTs) := by
    unfold OrderDispatcher.hands
    split
    · exact List.pairwise_singleton _ _
    · exact .nil
  refine ⟨?_, ?_⟩
  · rw [hords, hacc]
    refine List.rel_append hl.taken ?_
    rw [List.forall₂_map_left_iff, List.forall₂_same]
    intro d _
    rw [orderTs_packOrder]
  · rw [hords]
    refine List.pairwise_append.2 ⟨hl.aged, hone, fun x hx y hy => ?_⟩
    rw [hnew y hy]
    exact hpast x hx

theorem run_laneOk (is : List TopIn) (hb : OneBatch is) (hlen : is.length < 2 ^ 32) (e : Fin 8) :
    LaneOk (run is).2 e := by
  induction is using List.reverseRecOn with
  | nil => exact ⟨.nil, .nil⟩
  | append_singleton is i ih =>
    rw [List.length_append, List.length_singleton] at hlen
    have hl := ih hb.init (by omega)
    rw [run_snoc, next]
    cases hin : (run is).1.inReset i with
    | true => exact ⟨.nil, .nil⟩
    | false => exact hl.next ((run_past is (by omega)).1 e) (hb.kept.init.2 hin)

/-! ### What a lane's orders decide -/

/-- The price and the amount of a trade. -/
def priceAmount (t : Node) : BitVec 16 × BitVec 16 := (orderPrice t, orderAmount t)

theorem map_priceAmount {l l' : List Node} (h : List.Forall₂ (Similar nodeOps nodeOps) l l') :
    l.map priceAmount = l'.map priceAmount := by
  induction h with
  | nil => rfl
  | cons hxy _ ih =>
    rw [List.map_cons, List.map_cons, ih]
    exact congrArg (· :: _) (Prod.ext (BitVec.eq_of_toNat_eq hxy.1) (BitVec.eq_of_toNat_eq hxy.2))

/-- The trades of a run are the first ones of the order book on the orders taken. -/
theorem run_trades_first (is : List TopIn) (hb : OneBatch is) (hlen : is.length < 2 ^ 32) (e : Fin 8) :
    (run is).2.trades e <+: (runOrders nodeOps ((run is).2.orders e)).1 := by
  have hk := run_linked (fun _ _ => True) is (unused_of_keys is hb.keys).1 fun _ _ _ _ _ _ => trivial
  obtain ⟨ps, g, hinv, -⟩ := hk.eng e
  exact hinv.trades_first (run_laneOk is hb hlen e).aged

theorem similar_of_packed {sym : BitVec 21} {os os' : List Node} {ds ds' : List DispatchOrder}
    (h : List.Forall₂ (fun x d => x = packOrder d sym (orderTs x)) os ds)
    (h' : List.Forall₂ (fun x d => x = packOrder d sym (orderTs x)) os' ds') (hp : ds <+: ds') :
    ∃ t, t <+: os' ∧ List.Forall₂ (fun x y => PriceTime.Similar nodeOps nodeOps x y ∧ nodeOps.isBid x = nodeOps.isBid y) os t := by
  induction h generalizing os' ds' with
  | nil => exact ⟨[], List.nil_prefix, .nil⟩
  | @cons x d os ds hx _ ih =>
    obtain ⟨r, rfl⟩ := hp
    cases h' with
    | @cons y _ os' _ hy hrest =>
      obtain ⟨t, ht, hsim⟩ := ih hrest (List.prefix_append _ _)
      refine ⟨y :: t, List.cons_prefix_cons.2 ⟨rfl, ht⟩, .cons ?_ hsim⟩
      rw [hx, hy]
      simp [PriceTime.Similar, nodeOps]

theorem trades_comparable {is is' : List TopIn} (hb : OneBatch is) (hb' : OneBatch is') (hlen : is.length < 2 ^ 32)
    (hlen' : is'.length < 2 ^ 32) (hp : (run is).2.batch.accepted e <+: (run is').2.batch.accepted e) :
    ((run is).2.trades e).map priceAmount <+: ((run is').2.trades e).map priceAmount ∨
      ((run is').2.trades e).map priceAmount <+: ((run is).2.trades e).map priceAmount := by
  have hl := run_laneOk is hb hlen e
  have hl' := run_laneOk is' hb' hlen' e
  obtain ⟨t, ht, hsim⟩ := similar_of_packed hl.taken hl'.taken hp
  have haged : nodeOps.Aged t := hl'.aged.sublist ht.sublist
  have heq := map_priceAmount (runOrders_alike nodeOps_lawful nodeOps_lawful hsim hl.aged haged).1
  have h1 := (run_trades_first is hb hlen e).map priceAmount
  have h2 := (run_trades_first is' hb' hlen' e).map priceAmount
  rw [heq] at h1
  exact List.prefix_or_prefix_of_prefix (h1.trans ((runOrders_first ht).map priceAmount)) h2

/-- Two runs of one batch each, with whatever orders in the other lanes: as long as lane `e` has stored
parts of the same list of orders, the prices and amounts of the trades of engine `e` in one run are the
first ones of those in the other. -/
theorem lanes_independent (is is' : List TopIn) (hb : OneBatch is) (hb' : OneBatch is') (hlen : is.length < 2 ^ 32)
    (hlen' : is'.length < 2 ^ 32) (e : Fin 8) (orders : List DispatchOrder)
    (ho : (run is).2.batch.written e <+: orders) (ho' : (run is').2.batch.written e <+: orders) :
    ((run is).2.trades e).map priceAmount <+: ((run is').2.trades e).map priceAmount ∨
      ((run is').2.trades e).map priceAmount <+: ((run is).2.trades e).map priceAmount := by
  have ha := ((run_ctrlOk is).disp.queue e).taken.trans ho
  have ha' := ((run_ctrlOk is').disp.queue e).taken.trans ho'
  rcases List.prefix_or_prefix_of_prefix ha ha' with hp | hp
  · exact trades_comparable hb hb' hlen hlen' hp
  · exact (trades_comparable hb' hb hlen' hlen hp).symm

/-- The orders of `bidAndAsk 3` in lane 0, with a crossing pair in lane 1 before them. -/
def bidAndAskBeside : List TopIn :=
  (List.range 60).map fun t => ⟨0xF,
    if t = 3 then some ⟨0, 1⟩
    else if t = 5 then some ⟨3, hftDispPackOrderWord ⟨1, 7, 2⟩⟩
    else if t = 6 then some ⟨3, hftDispPackOrderWord ⟨0, 6, 9⟩⟩
    else if t = 7 then some ⟨2, hftDispPackOrderWord ⟨1, 5, 3⟩⟩
    else if t = 8 then some ⟨2, hftDispPackOrderWord ⟨0, 5, 3⟩⟩
    else if t = 9 then some ⟨0, 2⟩
    else none⟩

theorem lanes_independent_beside : ((run (bidAndAsk 3)).2.trades 0).length = 1 ∧
    ((run bidAndAskBeside).2.trades 0).length = 1 ∧ ((run bidAndAskBeside).2.trades 1).length = 1 ∧
    ((run (bidAndAsk 3)).2.trades 0).map priceAmount = ((run bidAndAskBeside).2.trades 0).map priceAmount := by
  have hone : ((run (bidAndAsk 3)).2.trades 0).length = 1 := by decide +kernel
  have htwo : ((run bidAndAskBeside).2.trades 0).length = 1 ∧ ((run bidAndAskBeside).2.trades 1).length = 1 := by
    decide +kernel
  have hsame : (run (bidAndAsk 3)).2.batch.written 0 = (run bidAndAskBeside).2.batch.written 0 := by decide +kernel
  refine ⟨hone, htwo.1, htwo.2, ?_⟩
  rcases lanes_independent (bidAndAsk 3) bidAndAskBeside (oneBatch_of_writes (by decide))
    (oneBatch_of_writes (by decide)) (by decide) (by decide) 0 _ (List.prefix_refl _)
    (by rw [hsame]) with hp | hp
  · exact hp.eq_of_length (by rw [List.length_map, List.length_map, hone, htwo.1])
  · exact (hp.eq_of_length (by rw [List.length_map, List.length_map, hone, htwo.1])).symm

end Top

end HftSim
