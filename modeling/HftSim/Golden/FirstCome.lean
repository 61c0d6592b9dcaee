import HftSim.Golden.NoMemory
import HftSim.Lib.FirstCome

/-!
# First come, first served, by the nanosecond

`create_order` keeps the nanosecond part of the clock. The heaps stay sorted by price and timestamp
whatever the orders are, so orders at one price trade in the order in which they were created as long as
each comes with a timestamp above those of the ones it waits behind (`Sim.InTime`); across a second it
may come with a smaller one.
-/

namespace HftSim.Golden

open Function

/-- `create_order`: of the clock, in nanoseconds, it keeps `tv_nsec`. -/
def createOrder (price amount : Int) (type : Bool) (clock : Nat) : Order :=
  ⟨short price, clock % 10 ^ 9, short amount, type⟩

/-- An order to be created and submitted; `clock` is the time it is created at. -/
structure Request (σ : Type*) where
  symbol : σ
  type : Bool
  price : Int
  amount : Int
  clock : Nat
  now : Nat → Nat

def Request.submission {σ : Type*} (q : Request σ) : Submission σ :=
  ⟨q.symbol, createOrder q.price q.amount q.type q.clock, q.now⟩

/-! ### What happens to the orders -/

def Heaps.orders (p : Heaps) (ask : Bool) : Multiset Order := (p.side ask).orders

def Heaps.roots (p : Heaps) (ask : Bool) : Order := (p.side ask).peek

/-- The roots that trade in the `while` loop. -/
def Desk.deals (now : Nat → Nat) : Nat → Nat → Desk → List (Bool → Order)
  | 0, _, _ => []
  | fuel + 1, j, d =>
    match d.round now j with
    | none => []
    | some d' => d.ob.heaps.roots :: Desk.deals now fuel (j + 1) d'

/-- The roots that trade when an order is submitted. -/
def Desk.submitDeals (d : Desk) (o : Order) (symId : Int) (now : Nat → Nat) : List (Bool → Order) :=
  let r := memAwareInsert d.ob d.mm o symId
  let d' : Desk := { d with ob := r.2.1, mm := r.2.2 }
  if r.1 then d'.deals now (d'.ob.asks.size + d'.ob.bids.size + 1) 0 else []

/-- The orders of each symbol that have been accepted, and the pairs that have traded. -/
structure History (σ : Type*) where
  orders : σ → List Order
  deals : σ → List (Bool → Order)

namespace Sim

variable {σ : Type*} [DecidableEq σ]

def book (s : Sim σ) (symbol : σ) : OrderBook :=
  (s.books.find? fun b => decide (b.1 = symbol)).elim createOrderBook Prod.snd

/-- The desk that a submission is made at. -/
def desk (s : Sim σ) (symbol : σ) : Desk := ⟨s.book symbol, s.mm, [], s.openFiles⟩

def record (s : Sim σ) (h : History σ) (sub : Submission σ) : History σ :=
  let i := symId (findOrCreateBook s.books sub.symbol) sub.symbol
  { orders := if (memAwareInsert (s.book sub.symbol) s.mm sub.order i).1
      then update h.orders sub.symbol (h.orders sub.symbol ++ [sub.order]) else h.orders
    deals := update h.deals sub.symbol
      (h.deals sub.symbol ++ (s.desk sub.symbol).submitDeals sub.order i sub.now) }

def history (subs : List (Submission σ)) : History σ :=
  (subs.foldl (fun sh sub => (sh.1.submit sub, record sh.1 sh.2 sub)) (start, ⟨fun _ => [], fun _ => []⟩)).2

/-- If it is accepted, an order has a timestamp above those of the resting orders of its symbol, side and
price. -/
def Behind (s : Sim σ) (sub : Submission σ) : Prop :=
  s.Accepts sub → ∀ y ∈ (s.book sub.symbol).heaps.orders sub.order.type, y.price = sub.order.price →
    y.timestamp < sub.order.timestamp

def InTime (subs : List (Submission σ)) : Prop :=
  ∀ n < subs.length, ∀ sub ∈ subs[n]?, (run (subs.take n)).Behind sub

instance (s : Sim σ) (sub : Submission σ) : Decidable (s.Behind sub) :=
  inferInstanceAs (Decidable (_ → ∀ y ∈ (_ : Multiset Order), _))

instance (subs : List (Submission σ)) : Decidable (InTime subs) :=
  inferInstanceAs (Decidable (∀ n < _, _))

end Sim

/-- What a trade leaves of an order. -/
def tradeRules : FirstCome.Rules Order Int where
  side := Order.type
  price := Order.price
  stamp := Order.timestamp
  rest x y := if x.amount ≤ y.amount then none else some { x with amount := short (x.amount - y.amount) }
  price_rest {x y z} h := by
    split at h
    · cases h
    · cases h; rfl
  stamp_rest {x y z} h := by
    split at h
    · cases h
    · cases h; rfl

/-! ### The heaps -/

def timeKey (ask : Bool) (o : Order) : Int ×ₗ Nat := toLex (if ask then o.price else -o.price, o.timestamp)

theorem timeKey_lt {ask : Bool} {a b : Order} (h : timeKey ask a < timeKey ask b) : key ask a < key ask b := by
  rw [key_lt]
  unfold timeKey at h
  rcases Prod.Lex.toLex_lt_toLex.1 h with h | ⟨h1, h2⟩
  · left
    cases ask
    · simp only [Bool.false_eq_true, if_false] at h ⊢; omega
    · simpa using h
  · right
    refine ⟨?_, .inl h2⟩
    cases ask
    · simp only [Bool.false_eq_true, if_false] at h1; omega
    · simpa using h1

theorem steady_time : Steady timeKey where
  follows ask :=
    ⟨fun a b h => not_lt.1 fun hlt => absurd (timeKey_lt hlt) (not_lt.2 ((follows_key ask).of_true a b h)),
      fun a b h => not_lt.1 fun hlt => absurd (timeKey_lt hlt) (not_lt.2 ((follows_key ask).of_false a b h))⟩
  amount _ _ _ := rfl

namespace Heaps

variable {p : Heaps}

theorem Sorted.oldest (hp : p.Sorted timeKey) (ask : Bool) : tradeRules.Oldest (p.orders ask) (p.roots ask) := by
  intro y hy hprice
  obtain ⟨j, hj, rfl⟩ := BinHeap.mem_contents.1 hy
  have hle : timeKey ask (p.roots ask) ≤ timeKey ask ((p.side ask).data j) := (hp ask).root_le j hj
  have hprice : ((p.side ask).data j).price = (p.roots ask).price := hprice
  unfold timeKey at hle
  rw [hprice] at hle
  rcases Prod.Lex.toLex_le_toLex.1 hle with hlt | ⟨-, hle⟩
  · exact absurd hlt (lt_irrefl _)
  · exact hle

theorem Sorted.trade {nb na : Nat} {t : Trade} (hp : p.Sorted timeKey) (ht : (checkForTrade nb na p).1 = some t) :
    ∃ n : Bool → Multiset Order, (∀ ask, p.orders ask = p.roots ask ::ₘ n ask) ∧
      (checkForTrade nb na p).2.orders = fun ask =>
        (tradeRules.rest (p.roots ask) (p.roots !ask)).elim (n ask) (· ::ₘ n ask) := by
  have hc : ¬ (p.asks.size = 0 ∨ p.bids.size = 0 ∨ p.bids.peek.price < p.asks.peek.price) := fun hc => by
    rw [check_of_not_cross nb na hc] at ht
    cases ht
  have hsize : ∀ ask, (p.side ask).size ≠ 0 := fun ask => by
    cases ask
    · show p.bids.size ≠ 0; omega
    · show p.asks.size ≠ 0; omega
  have hside := (check_of_cross nb na (p := p) (by omega) (by omega)).2
  have hfill := fun ask => (Heap.fill_spec steady_time (hp ask) (hsize ask) (if ask then na else nb)
    (p.side !ask).peek.amount).2
  choose n hn hleft using hfill
  refine ⟨n, hn, funext fun ask => ?_⟩
  show ((checkForTrade nb na p).2.side ask).orders = _
  rw [hside ask, hleft ask]
  show _ = Option.elim (if (p.side ask).peek.amount ≤ (p.side !ask).peek.amount then _ else _) _ _
  split <;> rfl

theorem orders_push (p : Heaps) (hp : p.Sorted timeKey) (o : Order) :
    (p.push o).orders = fun ask => if tradeRules.side o = ask then o ::ₘ p.orders ask else p.orders ask := by
  funext ask
  unfold orders
  rw [push_side]
  by_cases h : ask = o.type
  · rw [if_pos h, if_pos (show tradeRules.side o = ask from h.symm)]
    exact (Heap.push_sorted (steady_time.follows ask) (hp ask) o).2
  · rw [if_neg h, if_neg (show ¬ tradeRules.side o = ask from fun hc => h hc.symm)]

end Heaps

/-! ### Whole runs -/

/-- The book has come about by the orders and deals, and its heaps are sorted. -/
structure Heaps.Trace (p : Heaps) (os : List Order) (ps : List (Bool → Order)) : Prop where
  trail : tradeRules.Trail os ps p.orders
  sorted : p.Sorted timeKey

variable {d : Desk} {os : List Order} {ps : List (Bool → Order)}

theorem Heaps.Trace.loop {now : Nat → Nat} {fuel j : Nat} (h : d.ob.heaps.Trace os ps) :
    (d.loop now fuel j).ob.heaps.Trace os (ps ++ d.deals now fuel j) := by
  induction fuel generalizing d ps j with
  | zero => simpa [Desk.loop, Desk.deals] using h
  | succ fuel ih =>
    unfold Desk.loop Desk.deals
    rcases Desk.round_cases d now j with ⟨hnone, hr⟩ | ⟨t, d', ht, hr, hheaps, -⟩
    · rw [hr]
      dsimp only
      rw [List.append_nil, show d.last now j = _ from rfl]
      have hob : (d.last now j).ob = d.ob := (round_eq_none hr).1
      rw [hob]
      exact h
    · rw [hr]
      dsimp only
      obtain ⟨n, hn, hafter⟩ := h.sorted.trade ht
      have htrade : d'.ob.heaps.Trace os (ps ++ [d.ob.heaps.roots]) := by
        constructor
        · rw [hheaps, hafter]
          exact h.trail.trade hn h.sorted.oldest
        · rw [hheaps]
          exact h.sorted.check steady_time _ _
      have := ih (j := j + 1) htrade
      rwa [List.append_assoc, List.singleton_append] at this

theorem memAwareInsert_reject {ob : OrderBook} {mm : MemoryManager} {o : Order} {symId : Int}
    (hrej : (memAwareInsert ob mm o symId).1 = false) : (memAwareInsert ob mm o symId).2.1 = ob := by
  unfold memAwareInsert insertElsewhere at hrej ⊢
  by_cases hroom : 0 < ob.mem.pageCount ∧ ob.mem.nodesInCurrPage < pageSize
  · rw [if_pos hroom] at hrej ⊢
    split at hrej
    · rfl
    · cases hrej
  · rw [if_neg hroom] at hrej ⊢
    split at hrej
    · cases hrej
    · split at hrej
      · cases hrej
      · rename_i hfull
        rw [if_neg hfull]

theorem Heaps.Trace.submit {o : Order} {symId : Int} {now : Nat → Nat} (h : d.ob.heaps.Trace os ps)
    (ho : (memAwareInsert d.ob d.mm o symId).1 = true → tradeRules.Younger d.ob.heaps.orders o) :
    (d.submit o symId now).ob.heaps.Trace (if (memAwareInsert d.ob d.mm o symId).1 then os ++ [o] else os)
      (ps ++ d.submitDeals o symId now) := by
  unfold Desk.submit Desk.submitDeals
  dsimp only
  by_cases hacc : (memAwareInsert d.ob d.mm o symId).1 = true
  · rw [if_pos hacc, if_pos hacc, if_pos hacc]
    refine Heaps.Trace.loop ?_
    obtain ⟨hb, ha⟩ := memAwareInsert_heaps hacc
    have hins : (memAwareInsert d.ob d.mm o symId).2.1.heaps = d.ob.heaps.push o := by
      rw [← pushOrder_heaps]
      unfold OrderBook.heaps
      rw [ha, hb]
    dsimp only
    rw [hins]
    constructor
    · rw [Heaps.orders_push _ h.sorted]
      exact h.trail.arrive (ho hacc)
    · exact h.sorted.push steady_time o
  · rw [if_neg hacc, if_neg hacc, if_neg hacc, List.append_nil]
    dsimp only
    rw [memAwareInsert_reject (by simpa using hacc)]
    exact h

namespace Sim

variable {σ : Type*} [DecidableEq σ]

theorem find?_findOrCreateBook (s : Sim σ) (symbol symbol' : σ) :
    ((findOrCreateBook s.books symbol).find? fun b => decide (b.1 = symbol')).elim createOrderBook Prod.snd =
      s.book symbol' := by
  unfold findOrCreateBook book
  split
  · rfl
  · rw [List.find?_append]
    generalize s.books.find? (fun b => decide (b.1 = symbol')) = found
    rcases found with _ | b
    · rw [Option.none_or, List.find?_singleton]
      split <;> rfl
    · rfl

theorem mem_findOrCreateBook (s : Sim σ) (symbol : σ) : ∃ b ∈ findOrCreateBook s.books symbol, b.1 = symbol := by
  unfold findOrCreateBook
  split
  · rename_i hany
    obtain ⟨b, hb, hs⟩ := List.any_eq_true.1 hany
    exact ⟨b, hb, of_decide_eq_true hs⟩
  · exact ⟨(symbol, createOrderBook), by simp, rfl⟩

theorem find_symId (s : Sim σ) (symbol : σ) :
    (findOrCreateBook s.books symbol)[symId (findOrCreateBook s.books symbol) symbol]? = some (symbol, s.book symbol) := by
  have hfind := find?_findOrCreateBook s symbol symbol
  obtain ⟨b, hb, hs⟩ := mem_findOrCreateBook s symbol
  unfold symId
  rw [← List.find?_eq_getElem?_findIdx]
  rcases hf : (findOrCreateBook s.books symbol).find? fun b => decide (b.1 = symbol) with _ | b'
  · rw [List.find?_eq_none] at hf
    exact absurd (decide_eq_true hs) (hf b hb)
  · have hs' : b'.1 = symbol := by simpa using List.find?_some hf
    rw [hf] at hfind
    exact hf.trans (congrArg some (show b' = (symbol, s.book symbol) from Prod.ext hs' hfind))

theorem find?_set_symId {books : List (σ × OrderBook)} {symbol symbol' : σ} (h : ∃ b ∈ books, b.1 = symbol)
    (ob : OrderBook) : ((books.set (symId books symbol) (symbol, ob)).find? fun b => decide (b.1 = symbol')) =
      if symbol' = symbol then some (symbol, ob) else books.find? fun b => decide (b.1 = symbol') := by
  induction books with
  | nil => obtain ⟨b, hb, -⟩ := h; cases hb
  | cons b books ih =>
    unfold symId at ih ⊢
    by_cases hb : b.1 = symbol
    · rw [List.findIdx_cons, decide_eq_true hb]
      simp only [cond_true, List.set_cons_zero, List.find?_cons]
      by_cases hs : symbol' = symbol
      · simp [hs]
      · simp [hs, hb, Ne.symm hs]
    · obtain ⟨b', hb', hs'⟩ := h
      rcases List.mem_cons.1 hb' with rfl | hb'
      · exact absurd hs' hb
      have ih := ih ⟨b', hb', hs'⟩
      rw [List.findIdx_cons, decide_eq_false hb]
      simp only [cond_false, List.set_cons_succ, List.find?_cons]
      rw [ih]
      by_cases hs : symbol' = symbol
      · simp [hs, hb]
      · simp [hs]

/-- A submission changes the book of its symbol and no other. -/
theorem book_submit (s : Sim σ) (sub : Submission σ) (symbol : σ) :
    (s.submit sub).book symbol = if symbol = sub.symbol then
      ((s.desk sub.symbol).submit sub.order (symId (findOrCreateBook s.books sub.symbol) sub.symbol) sub.now).ob
      else s.book symbol := by
  unfold submit
  dsimp only
  rw [find_symId]
  dsimp only
  rw [book, find?_set_symId (mem_findOrCreateBook s sub.symbol)]
  split
  · rfl
  · exact find?_findOrCreateBook s sub.symbol symbol

theorem accepts_iff (s : Sim σ) (sub : Submission σ) : s.Accepts sub ↔ (memAwareInsert (s.book sub.symbol) s.mm
    sub.order (symId (findOrCreateBook s.books sub.symbol) sub.symbol)).1 = true := by
  unfold Accepts
  dsimp only
  rw [find_symId]
  simp

theorem history_snoc (subs : List (Submission σ)) (sub : Submission σ) :
    history (subs ++ [sub]) = record (run subs) (history subs) sub := by
  have hfst : ∀ l : List (Submission σ), (l.foldl (fun sh sub => (sh.1.submit sub, record sh.1 sh.2 sub))
      (start, ⟨fun _ => [], fun _ => []⟩)).1 = run l := by
    intro l
    induction l using List.reverseRecOn with
    | nil => rfl
    | append_singleton l x ih => rw [List.foldl_append, run_snoc, ← ih]; rfl
  unfold history
  rw [List.foldl_append, ← hfst]
  rfl

theorem InTime.init {subs : List (Submission σ)} {sub : Submission σ} (h : InTime (subs ++ [sub])) :
    InTime subs ∧ (run subs).Behind sub := by
  constructor
  · intro n hn x hx
    have := h n (by rw [List.length_append]; omega) x (by rw [List.getElem?_append_left hn]; exact hx)
    rwa [List.take_append_of_le_length (by omega)] at this
  · have := h subs.length (by simp) sub (by simp)
    rwa [List.take_left'] at this
    rfl

theorem run_trace {subs : List (Submission σ)} (h : InTime subs) (symbol : σ) :
    ((run subs).book symbol).heaps.Trace ((history subs).orders symbol) ((history subs).deals symbol) := by
  induction subs using List.reverseRecOn with
  | nil =>
    have hempty : ((run ([] : List (Submission σ))).book symbol).heaps.orders = fun _ => 0 := by
      funext ask
      cases ask <;> rfl
    refine ⟨?_, fun t i _ hi => ?_⟩
    · rw [hempty]
      exact .nil
    · cases t <;> exact absurd hi (Nat.not_lt_zero _)
  | append_singleton subs sub ih =>
    obtain ⟨hinit, hsub⟩ := h.init
    have ih := ih hinit
    rw [run_snoc, history_snoc, book_submit]
    unfold record
    by_cases hs : symbol = sub.symbol
    · subst hs
      rw [if_pos rfl]
      have hstep := @Heaps.Trace.submit ((run subs).desk sub.symbol) _ _ _ _ sub.now ih fun hacc =>
        hsub ((accepts_iff _ _).2 hacc)
      change Heaps.Trace _ (if (memAwareInsert ((run subs).book sub.symbol) (run subs).mm sub.order _).1 then _ else _) _
        at hstep
      dsimp only
      rw [update_self]
      split
      · rename_i hacc
        rw [if_pos hacc] at hstep
        rw [update_self]
        exact hstep
      · rename_i hrej
        rw [if_neg hrej] at hstep
        exact hstep
    · rw [if_neg hs]
      dsimp only
      rw [update_of_ne hs]
      split
      · rw [update_of_ne hs]; exact ih
      · exact ih

/-- If every order comes with a timestamp above those of the resting orders of its symbol, side and price,
the orders at one price are filled in the order in which they were created. -/
theorem first_come (qs : List (Request σ)) (h : InTime (qs.map Request.submission)) (symbol : σ) :
    tradeRules.Served ((history (qs.map Request.submission)).orders symbol)
      ((history (qs.map Request.submission)).deals symbol) :=
  (run_trace h symbol).trail.served

/-- Two bids for 3 shares at one price, created at `c` and `c'`, and an ask for 4. -/
def twoBids (c c' : Nat) : List (Request Nat) :=
  [⟨0, false, 5, 3, c, fun _ => 0⟩, ⟨0, false, 5, 3, c', fun _ => 0⟩, ⟨0, true, 5, 4, c' + 1, fun _ => 0⟩]

/-- Within a second the first bid trades, and then the second. -/
theorem first_come_twoBids : ((history ((twoBids 7 8).map Request.submission)).deals 0).map (fun p => (p false).timestamp) =
      [7, 8] ∧
    tradeRules.Served ((history ((twoBids 7 8).map Request.submission)).orders 0)
      ((history ((twoBids 7 8).map Request.submission)).deals 0) :=
  ⟨by decide +kernel, first_come (twoBids 7 8) (by decide +kernel) 0⟩

/-- The second one after the next second has begun, the second bid trades first. -/
theorem second_overtakes : (twoBids 999999999 1000000001).Pairwise (fun q q' => q.clock < q'.clock) ∧
    ¬ tradeRules.Served ((history ((twoBids 999999999 1000000001).map Request.submission)).orders 0)
      ((history ((twoBids 999999999 1000000001).map Request.submission)).deals 0) := by
  refine ⟨by decide, ?_⟩
  have horders : (history ((twoBids 999999999 1000000001).map Request.submission)).orders 0 =
      [⟨5, 999999999, 3, false⟩, ⟨5, 1, 3, false⟩, ⟨5, 2, 4, true⟩] := by decide +kernel
  have hdeals : ((history ((twoBids 999999999 1000000001).map Request.submission)).deals 0).head?.map (· false) =
      some ⟨5, 1, 3, false⟩ := by decide +kernel
  rw [horders]
  rintro ⟨qs, hqs, hin⟩
  rw [← hqs] at hdeals
  rcases qs with _ | ⟨q, qs⟩
  · cases hdeals
  have hq : (q false).2 = ⟨5, 1, 3, false⟩ := Option.some.inj hdeals
  obtain ⟨x, hx, -, hrem⟩ := hin.own 0 q rfl false
  -- nothing has traded, so the label is that of the second bid
  have hxq : x = ⟨5, 1, 3, false⟩ := (Option.some.inj hrem).trans hq
  have hlabel : 0 < (q false).1 := by
    rcases Nat.eq_zero_or_pos (q false).1 with h0 | h0
    · rw [h0, hxq] at hx
      cases hx
    · exact h0
  have hfirst := hin.first 0 q rfl false 0 _ hlabel rfl rfl (by rw [hq]; rfl)
  cases hfirst

end Sim

end HftSim.Golden
