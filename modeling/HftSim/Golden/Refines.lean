import HftSim.Golden.Balance
import HftSim.Lib.PriceTime

/-!
# The golden model refines the order book

With increasing timestamps no two orders of a side tie, so the heap's root is the order the book picks
and a partial fill, which rewrites the root's amount, does not disturb the heap (`Heap.Ordered.update`).
-/

namespace HftSim.Golden

open Function PriceTime

def orderOps : Ops Order where
  isBid o := !o.type
  price o := o.price.toNat
  amount o := o.amount.toNat
  stamp o := o.timestamp
  setAmount o a := { o with amount := a }

theorem orderOps_lawful : orderOps.Lawful where
  isBid_set _ _ := rfl
  price_set _ _ := rfl
  stamp_set _ _ := rfl
  amount_set _ a _ := Int.toNat_natCast a

/-- What the sources admit: prices and amounts in `0 .. 32767`. -/
def Order.Admitted (o : Order) : Prop := 0 ≤ o.price ∧ 0 ≤ o.amount ∧ o.amount < 2 ^ 15

theorem short_eq {x : Int} (h0 : 0 ≤ x) (h1 : x < 2 ^ 15) : short x = x := by
  unfold short
  omega

theorem before_eq_false {ask : Bool} {x y : Order} (hx : x.Admitted) (hy : y.Admitted)
    (h : key ask x ≤ key ask y) : orderOps.before (!ask) y x = false := by
  have hlt := mt (key_lt ask y x).2 (not_lt.2 h)
  rw [orderOps.before_eq_false]
  obtain ⟨hx, -, -⟩ := hx
  obtain ⟨hy, -, -⟩ := hy
  simp only [orderOps]
  cases ask
  · simp only [Bool.false_eq_true, if_false, not_or, not_and, not_lt] at hlt
    simp only [Bool.not_false, if_true]
    refine ⟨by omega, fun he => ?_⟩
    have := (hlt.2 (by omega)).1
    omega
  · simp only [if_true, not_or, not_and, not_lt] at hlt
    simp only [Bool.not_true, Bool.false_eq_true, if_false]
    refine ⟨by omega, fun he => ?_⟩
    have := (hlt.2 (by omega)).1
    omega

variable {ask : Bool} {h : Heap} {l : List Order}

theorem stamp_ne (hl : h.orders = ↑l) (ha : orderOps.Aged l) {i j : Nat} (hi : i < h.size) (hj : j < h.size)
    (hij : i ≠ j) : (h.data i).timestamp ≠ (h.data j).timestamp := by
  have hnd : (h.orders.map Order.timestamp).Nodup := by
    rw [hl, Multiset.map_coe, Multiset.coe_nodup]
    exact List.pairwise_map.2 (ha.imp fun hlt => Nat.ne_of_lt hlt)
  rw [Heap.orders, BinHeap.contents, Multiset.map_map] at hnd
  intro he
  exact hij (Multiset.inj_on_of_nodup_map hnd i (Multiset.mem_range.2 hi) j (Multiset.mem_range.2 hj) he)

theorem Heap.Ordered.update (hh : h.Ordered ask) (hl : h.orders = ↑l) (ha : orderOps.Aged l) (a : Int) :
    (h.update a).Ordered ask := by
  intro i hi hin
  have hin' : i < h.size := hin
  show key ask (Function.update h.data 0 _ (BinHeap.parent i)) ≤ key ask (Function.update h.data 0 _ i)
  rw [update_of_ne (Nat.ne_of_gt hi)]
  by_cases hp : BinHeap.parent i = 0
  · rw [hp, update_self]
    have hle := BinHeap.Ordered.root_le hh i hin'
    have hne := stamp_ne hl ha (i := 0) (j := i) (by omega) hin' (by omega)
    refine le_of_lt ((key_lt _ _ _).2 ?_)
    have hlt := mt (key_lt ask (h.data i) (h.data 0)).2 (not_lt.2 hle)
    dsimp only
    cases ask
    · simp only [Bool.false_eq_true, if_false, not_or, not_and, not_lt] at hlt ⊢
      by_cases hpr : (h.data 0).price = (h.data i).price
      · have := (hlt.2 hpr.symm).1
        exact .inr ⟨hpr, .inl (by omega)⟩
      · exact .inl (by omega)
    · simp only [if_true, not_or, not_and, not_lt] at hlt ⊢
      by_cases hpr : (h.data 0).price = (h.data i).price
      · have := (hlt.2 hpr.symm).1
        exact .inr ⟨hpr, .inl (by omega)⟩
      · exact .inl (by omega)
  · rw [update_of_ne hp]
    exact hh i hi hin'

/-- A heap that holds the orders of one side of a book. -/
structure Heap.Side (ask : Bool) (h : Heap) (l : List Order) : Prop where
  ordered : h.Ordered ask
  orders : h.orders = ↑l
  admitted : ∀ o ∈ l, o.Admitted

theorem Heap.Side.size (hs : h.Side ask l) : h.size = l.length := by
  rw [← Heap.card_orders, hs.orders]; rfl

theorem Heap.Side.pick (hs : h.Side ask l) (ha : orderOps.Aged l) (h0 : h.size ≠ 0) :
    ∃ pre post, pick (orderOps.before (!ask)) l = some (pre, h.peek, post) := by
  have hmem : h.peek ∈ l := by
    have := Heap.peek_mem h0
    rwa [hs.orders, Multiset.mem_coe] at this
  refine pick_eq ha hmem fun z hz => ?_
  refine before_eq_false (hs.admitted _ hmem) (hs.admitted z hz) (Heap.peek_le hs.ordered z ?_)
  rw [hs.orders]; exact Multiset.mem_coe.2 hz

theorem Heap.Side.push (hs : h.Side ask l) {o : Order} (ho : o.Admitted) :
    (h.push (cmpOf ask) o).Side ask (l ++ [o]) := by
  obtain ⟨h1, h2⟩ := Heap.push_spec hs.ordered o
  refine ⟨h1, ?_, fun z hz => ?_⟩
  · rw [h2, hs.orders, Multiset.cons_coe, Multiset.coe_eq_coe]
    exact (List.perm_append_singleton o l).symm
  · rcases List.mem_append.1 hz with hz | hz
    · exact hs.admitted z hz
    · rw [List.mem_singleton.1 hz]; exact ho

theorem Heap.Side.pop {pre post : List Order} (hs : h.Side ask l) (hl : l = pre ++ h.peek :: post) (now : Nat) :
    (h.pop (cmpOf ask) now).1.Side ask (pre ++ post) := by
  have h0 : h.size ≠ 0 := by rw [hs.size, hl]; simp
  obtain ⟨h1, h2⟩ := Heap.pop_spec hs.ordered h0 now
  refine ⟨h1, ?_, fun z hz => hs.admitted z ?_⟩
  · rw [hs.orders, hl, Multiset.coe_eq_coe.2 List.perm_middle, ← Multiset.cons_coe] at h2
    exact ((Multiset.cons_inj_right _).1 h2).symm
  · rw [hl]
    rcases List.mem_append.1 hz with hz | hz
    · exact List.mem_append.2 (.inl hz)
    · exact List.mem_append.2 (.inr (List.mem_cons_of_mem _ hz))

theorem Heap.Side.update {pre post : List Order} {a : Nat} (hs : h.Side ask l) (ha : orderOps.Aged l)
    (hl : l = pre ++ h.peek :: post) (hlt : a < 2 ^ 15) :
    (h.update a).Side ask (pre ++ [orderOps.setAmount h.peek a] ++ post) := by
  have h0 : h.size ≠ 0 := by rw [hs.size, hl]; simp
  have hset : ({ h.peek with amount := short a } : Order) = orderOps.setAmount h.peek a := by
    rw [short_eq (by omega) (by omega)]; rfl
  refine ⟨hs.ordered.update hs.orders ha a, ?_, fun z hz => ?_⟩
  · have h2 := Heap.update_orders h0 (a : Int)
    rw [hset, hs.orders, hl, Multiset.coe_eq_coe.2 List.perm_middle, ← Multiset.cons_coe,
      Multiset.cons_swap] at h2
    rw [(Multiset.cons_inj_right _).1 h2, Multiset.cons_coe, Multiset.coe_eq_coe, List.append_assoc]
    exact List.perm_middle.symm
  · rw [List.append_assoc] at hz
    rcases List.mem_append.1 hz with hz | hz
    · exact hs.admitted z (by rw [hl]; exact List.mem_append.2 (.inl hz))
    · rcases List.mem_cons.1 hz with rfl | hz
      · have := hs.admitted h.peek (by rw [hl]; simp)
        exact ⟨this.1, Int.natCast_nonneg a, by show (a : Int) < 2 ^ 15; omega⟩
      · exact hs.admitted z (by rw [hl]; exact List.mem_append.2 (.inr (List.mem_cons_of_mem _ hz)))

/-! ### One round of trading -/

def tradeOf (o : Order) : Trade := ⟨o.price, o.amount⟩

structure Desk.Sync (d : Desk) (b : Book Order) : Prop where
  bids : d.ob.bids.Side false b.bids
  asks : d.ob.asks.Side true b.asks

variable {d d' : Desk} {b b' : Book Order} {s : Nat}

theorem amount_toNat {o : Order} (ho : o.Admitted) : (orderOps.amount o : Int) = o.amount :=
  Int.toNat_of_nonneg ho.2.1

theorem price_toNat {o : Order} (ho : o.Admitted) : (orderOps.price o : Int) = o.price :=
  Int.toNat_of_nonneg ho.1

theorem Heap.Side.empty (hs : h.Side ask l) (h0 : h.size = 0) : l = [] := by
  rw [hs.size] at h0
  exact List.length_eq_zero_iff.1 h0

/-- The best order used up, or left with the rest of its amount. -/
theorem Heap.Side.fill {pre post : List Order} (hs : h.Side ask l) (ha : orderOps.Aged l)
    (hl : l = pre ++ h.peek :: post) (hadm : h.peek.Admitted) (a nowPop : Nat) :
    (h.peek.amount ≤ a → (h.pop (cmpOf ask) nowPop).1.Side ask (pre ++ orderOps.left h.peek a ++ post)) ∧
      (a < h.peek.amount →
        (h.update (h.peek.amount - a)).Side ask (pre ++ orderOps.left h.peek a ++ post)) := by
  have hamt := amount_toNat hadm
  refine ⟨fun hle => ?_, fun hlt => ?_⟩
  · have hnil : orderOps.left h.peek a = [] := if_pos (by omega)
    rw [hnil, List.append_nil]
    exact hs.pop hl nowPop
  · have hone : orderOps.left h.peek a = [orderOps.setAmount h.peek (orderOps.amount h.peek - a)] :=
      if_neg (by omega)
    have hrest : h.peek.amount - a = ((orderOps.amount h.peek - a : Nat) : Int) := by omega
    rw [hone, hrest]
    refine hs.update ha hl ?_
    have := hadm.2.2
    omega

/-- `check_for_trade_multi` trades when the book does, and leaves the heaps of the book after the
trade. -/
theorem check_sync {ob : OrderBook} (hb : ob.bids.Side false b.bids) (ha : ob.asks.Side true b.asks)
    (hf : b.Fit orderOps s) (nb na : Nat) (mm : MemoryManager) :
    match trade? orderOps b with
    | none => (checkForTradeMulti nb na ob mm).trade = none
    | some (t, b') => (checkForTradeMulti nb na ob mm).trade = some (tradeOf t) ∧
        (checkForTradeMulti nb na ob mm).ob.bids.Side false b'.bids ∧
        (checkForTradeMulti nb na ob mm).ob.asks.Side true b'.asks := by
  by_cases h0 : ob.asks.size = 0 ∨ ob.bids.size = 0
  · have hnone : trade? orderOps b = none := by
      rcases h0 with h0 | h0
      · simp only [trade?, ha.empty h0, pick]
        split <;> [contradiction; rfl]
      · simp only [trade?, hb.empty h0, pick]
    rw [hnone]
    simp only [checkForTradeMulti, if_pos h0]
  obtain ⟨bpre, bpost, hpb⟩ : ∃ pre post, pick (orderOps.before true) b.bids = some (pre, ob.bids.peek, post) :=
    hb.pick hf.bids (by omega)
  obtain ⟨apre, apost, hpa⟩ : ∃ pre post, pick (orderOps.before false) b.asks = some (pre, ob.asks.peek, post) :=
    ha.pick hf.asks (by omega)
  have hsb := pick_split hpb
  have hsa := pick_split hpa
  have hbid : ob.bids.peek.Admitted := hb.admitted _ (by rw [hsb]; simp)
  have hask : ob.asks.peek.Admitted := ha.admitted _ (by rw [hsa]; simp)
  have hfb := hb.fill hf.bids hsb hbid (orderOps.amount ob.asks.peek) nb
  have hfa := ha.fill hf.asks hsa hask (orderOps.amount ob.bids.peek) na
  have hba := amount_toNat hbid
  have haa := amount_toNat hask
  have hbp := price_toNat hbid
  have hap := price_toNat hask
  rw [haa] at hfb
  rw [hba] at hfa
  by_cases hcross : ob.asks.peek.price ≤ ob.bids.peek.price
  · have hle : orderOps.price ob.asks.peek ≤ orderOps.price ob.bids.peek := by omega
    have htrade : ∀ a : Int, a = (min (orderOps.amount ob.bids.peek) (orderOps.amount ob.asks.peek) : Nat) →
        some (⟨ob.bids.peek.price, a⟩ : Trade) = some (tradeOf (orderOps.setAmount ob.bids.peek
          (min (orderOps.amount ob.bids.peek) (orderOps.amount ob.asks.peek)))) := by
      rintro a rfl; rfl
    simp only [trade?, hpb, hpa, if_pos hle, checkForTradeMulti, if_neg h0, if_pos hcross]
    by_cases heq : ob.bids.peek.amount = ob.asks.peek.amount
    · simp only [if_pos heq, popSide_eq, Bool.false_eq_true, if_false, if_true]
      exact ⟨htrade _ (by omega), hfb.1 (by omega), hfa.1 (by omega)⟩
    · by_cases hlt : ob.asks.peek.amount < ob.bids.peek.amount
      · simp only [if_neg heq, if_pos hlt, popSide_eq, if_true]
        exact ⟨htrade _ (by omega), hfb.2 hlt, hfa.1 (by omega)⟩
      · simp only [if_neg heq, if_neg hlt, popSide_eq, Bool.false_eq_true, if_false]
        exact ⟨htrade _ (by omega), hfb.1 (by omega), hfa.2 (by omega)⟩
  · have hnle : ¬ orderOps.price ob.asks.peek ≤ orderOps.price ob.bids.peek := by omega
    simp only [trade?, hpb, hpa, if_neg hnle, checkForTradeMulti, if_neg h0, if_neg hcross]

theorem round_of_none (hs : d.Sync b) (hf : b.Fit orderOps s) (ht : trade? orderOps b = none) (now : Nat → Nat)
    (j : Nat) : d.round now j = none := by
  have hc := check_sync hs.bids hs.asks hf (now (2 * j)) (now (2 * j + 1)) d.mm
  rw [ht] at hc
  exact Option.map_eq_none_iff.2 hc

theorem round_of_some {t : Order} (hs : d.Sync b) (hf : b.Fit orderOps s)
    (ht : trade? orderOps b = some (t, b')) (now : Nat → Nat) (j : Nat) :
    ∃ d', d.round now j = some d' ∧ d'.Sync b' ∧ d'.log = d.log ++ [tradeOf t] := by
  have hc := check_sync hs.bids hs.asks hf (now (2 * j)) (now (2 * j + 1)) d.mm
  rw [ht] at hc
  obtain ⟨hct, hcb, hca⟩ := hc
  refine ⟨_, Option.map_eq_some_iff.2 ⟨_, hct, rfl⟩, ⟨?_, ?_⟩, rfl⟩
  · simp only [postTradeCleanup]; rw [(freeNodeMemory_heaps _ _).2.1]; exact hcb
  · simp only [postTradeCleanup]; rw [(freeNodeMemory_heaps _ _).1]; exact hca

/-! ### Whole runs -/

theorem loop_sync {now : Nat → Nat} {fuel j : Nat} (hs : d.Sync b) (hf : b.Fit orderOps s)
    (hfuel : b.bids.length + b.asks.length < fuel) :
    (d.loop now fuel j).Sync (settle orderOps b).2 ∧
      (d.loop now fuel j).log = d.log ++ (settle orderOps b).1.map tradeOf := by
  induction fuel generalizing d b j with
  | zero => omega
  | succ fuel ih =>
    simp only [Desk.loop]
    cases ht : trade? orderOps b with
    | none =>
      have hr := round_of_none hs hf ht now j
      rw [hr, settle_of_none ht]
      dsimp only
      refine ⟨⟨?_, ?_⟩, (List.append_nil _).symm⟩
      · rw [(round_eq_none hr).1]; exact hs.bids
      · rw [(round_eq_none hr).1]; exact hs.asks
    | some r =>
      obtain ⟨t, b'⟩ := r
      obtain ⟨d', hr, hs', hlog⟩ := round_of_some hs hf ht now j
      have hlen := trade?_length ht
      obtain ⟨h1, h2⟩ := ih (j := j + 1) hs' (hf.trade orderOps_lawful ht) (by omega)
      rw [hr, settle_of_some ht]
      refine ⟨h1, ?_⟩
      rw [h2, hlog, List.map_cons, List.append_assoc, List.singleton_append]

theorem memAwareInsert_heaps {ob : OrderBook} {mm : MemoryManager} {o : Order} {symId : Int}
    (hacc : (memAwareInsert ob mm o symId).1 = true) :
    (memAwareInsert ob mm o symId).2.1.bids = (pushOrder ob o).bids ∧
      (memAwareInsert ob mm o symId).2.1.asks = (pushOrder ob o).asks := by
  have hpush : ∀ m : SymbolMemory, (pushOrder { ob with mem := m } o).bids = (pushOrder ob o).bids ∧
      (pushOrder { ob with mem := m } o).asks = (pushOrder ob o).asks := by
    intro m
    unfold pushOrder
    split <;> exact ⟨rfl, rfl⟩
  unfold memAwareInsert insertElsewhere at hacc ⊢
  split
  · rename_i hroom
    rw [if_pos hroom] at hacc
    split
    · rename_i hn
      rw [hn] at hacc; cases hacc
    · exact hpush _
  · rename_i hroom
    rw [if_neg hroom] at hacc
    split
    · exact hpush _
    · rename_i hn
      rw [hn] at hacc
      dsimp only at hacc ⊢
      split
      · exact ⟨rfl, rfl⟩
      · rename_i hfull
        rw [if_neg hfull] at hacc; cases hacc

theorem submit_sync {o : Order} {symId : Int} (hs : d.Sync b) (hf : b.Fit orderOps o.timestamp) (ho : o.Admitted)
    (hacc : (memAwareInsert d.ob d.mm o symId).1 = true) (now : Nat → Nat) :
    (d.submit o symId now).Sync (process orderOps b o).2 ∧
      (d.submit o symId now).log = d.log ++ (process orderOps b o).1.map tradeOf := by
  obtain ⟨hb, ha⟩ := memAwareInsert_heaps hacc
  have hins : Desk.Sync ⟨(memAwareInsert d.ob d.mm o symId).2.1, (memAwareInsert d.ob d.mm o symId).2.2, d.log,
      d.openFiles⟩ (b.insert orderOps o) := by
    have hside : orderOps.isBid o = !o.type := rfl
    refine ⟨?_, ?_⟩
    · dsimp only
      rw [hb]
      unfold pushOrder Book.insert
      rw [hside]
      cases o.type
      · exact hs.bids.push ho
      · exact hs.bids
    · dsimp only
      rw [ha]
      unfold pushOrder Book.insert
      rw [hside]
      cases o.type
      · exact hs.asks
      · exact hs.asks.push ho
  unfold Desk.submit
  dsimp only
  rw [if_pos hacc]
  refine loop_sync hins (hf.insert (Nat.lt_succ_self _)) ?_
  have h1 := hins.bids.size
  have h2 := hins.asks.size
  dsimp only at h1 h2
  omega

namespace Sim

variable {σ : Type*} [DecidableEq σ]

/-- `mem_aware_insert` does not reject the order. -/
def Accepts (s : Sim σ) (sub : Submission σ) : Prop :=
  let books := findOrCreateBook s.books sub.symbol
  ∀ b ∈ books[symId books sub.symbol]?, (memAwareInsert b.2 s.mm sub.order (symId books sub.symbol)).1 = true

instance (s : Sim σ) (sub : Submission σ) : Decidable (s.Accepts sub) :=
  inferInstanceAs (Decidable (∀ b ∈ (_ : Option (σ × OrderBook)), _ = true))

/-- No order of a run is rejected. -/
def NoReject (subs : List (Submission σ)) : Prop :=
  ∀ n < subs.length, ∀ sub ∈ subs[n]?, (run (subs.take n)).Accepts sub

instance (subs : List (Submission σ)) : Decidable (NoReject subs) :=
  inferInstanceAs (Decidable (∀ n < _, _))

def resting (s : Sim σ) (ask : Bool) : Multiset Order :=
  (s.books.map fun b => (if ask then b.2.asks else b.2.bids).orders).sum

theorem NoReject.init {subs : List (Submission σ)} {sub : Submission σ} (h : NoReject (subs ++ [sub])) :
    NoReject subs ∧ (run subs).Accepts sub := by
  refine ⟨fun n hn x hx => ?_, ?_⟩
  · have := h n (by rw [List.length_append]; omega) x (by rw [List.getElem?_append_left hn]; exact hx)
    rwa [List.take_append_of_le_length (by omega)] at this
  · have := h subs.length (by simp) sub (by simp)
    rwa [List.take_left'] at this
    rfl

/-- A run on one symbol makes the trades of the book and leaves its resting orders. -/
theorem run_sync {symbol : σ} {subs : List (Submission σ)} (hsym : ∀ sub ∈ subs, sub.symbol = symbol)
    (hadm : ∀ sub ∈ subs, sub.order.Admitted) (hts : orderOps.Aged (subs.map Submission.order))
    (hacc : NoReject subs) :
    ∃ ob, findOrCreateBook (run subs).books symbol = [(symbol, ob)] ∧
      ob.bids.Side false (runOrders orderOps (subs.map Submission.order)).2.bids ∧
      ob.asks.Side true (runOrders orderOps (subs.map Submission.order)).2.asks ∧
      (run subs).log = (runOrders orderOps (subs.map Submission.order)).1.map fun t => (symbol, tradeOf t) := by
  induction subs using List.reverseRecOn with
  | nil =>
    have hempty : ∀ ask, (createHeap 10).Side ask [] := fun ask =>
      ⟨fun i h0 hi => absurd hi (Nat.not_lt_zero _), rfl, fun o ho => by cases ho⟩
    exact ⟨createOrderBook, rfl, hempty false, hempty true, rfl⟩
  | append_singleton subs sub ih =>
    rw [List.map_append, List.map_singleton] at hts ⊢
    obtain ⟨hts, -, hlast⟩ := List.pairwise_append.1 hts
    obtain ⟨hacc, hsub⟩ := hacc.init
    obtain ⟨ob, hbooks, hb, ha, hlog⟩ := ih (fun x hx => hsym x (by simp [hx])) (fun x hx => hadm x (by simp [hx]))
      hts hacc
    have hfit := runOrders_fit orderOps_lawful hts (s := sub.order.timestamp) fun x hx =>
      hlast x hx _ (by simp)
    have hs : sub.symbol = symbol := hsym sub (by simp)
    have hid : symId [(symbol, ob)] symbol = 0 := by simp [symId, List.findIdx_cons]
    rw [run_snoc, runOrders_snoc]
    generalize runOrders orderOps (subs.map Submission.order) = r at hfit hb ha hlog ⊢
    simp only [Accepts, hs, hbooks, hid] at hsub
    obtain ⟨hsync, hlog'⟩ := submit_sync (d := ⟨ob, (run subs).mm, [], (run subs).openFiles⟩) ⟨hb, ha⟩
      hfit (hadm sub (by simp)) (hsub (symbol, ob) rfl) sub.now
    simp only [Sim.submit, hs, hbooks, hid, List.getElem?_cons_zero, List.set_cons_zero]
    refine ⟨_, ?_, hsync.bids, hsync.asks, ?_⟩
    · simp [findOrCreateBook]
    · rw [hlog', hlog, List.nil_append, List.map_append, List.map_map]
      rfl

end Sim

end HftSim.Golden
