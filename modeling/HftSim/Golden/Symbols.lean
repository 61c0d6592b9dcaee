import HftSim.Golden.FirstCome

/-!
# Many symbols in the golden model

The books of the symbols share the frames and the overflow page, so the orders of one symbol can keep
`mem_aware_insert` from storing an order of another one. That is all they can do: the trades and the resting
orders of a symbol are those of the order book on the orders stored for it (`symbol_books`).
-/

namespace HftSim.Golden.Sim

open PriceTime

variable {σ : Type*} [DecidableEq σ] {s : Sim σ} {sub : Submission σ} {subs : List (Submission σ)} {symbol : σ}

/-- The desk of the order's symbol after the order. -/
def served (s : Sim σ) (sub : Submission σ) : Desk :=
  (s.desk sub.symbol).submit sub.order (symId (findOrCreateBook s.books sub.symbol) sub.symbol) sub.now

theorem served_book : (s.submit sub).book sub.symbol = (s.served sub).ob := by
  rw [book_submit, if_pos rfl]
  rfl

/-- The trades of a symbol. -/
def logOf (s : Sim σ) (symbol : σ) : List Trade := (s.log.filter fun p => decide (p.1 = symbol)).map Prod.snd

theorem logOf_submit : (s.submit sub).logOf symbol =
    s.logOf symbol ++ if symbol = sub.symbol then (s.served sub).log else [] := by
  have hlog : (s.submit sub).log = s.log ++ (s.served sub).log.map (sub.symbol, ·) := by
    unfold submit
    dsimp only
    rw [find_symId]
    rfl
  rw [logOf, logOf, hlog, List.filter_append, List.map_append, List.filter_map]
  congr 1
  by_cases hsym : symbol = sub.symbol
  · simp [hsym, Function.comp_def]
  · simp [hsym, Ne.symm hsym, Function.comp_def]

/-- The orders of a symbol that `mem_aware_insert` stores when `subs` are submitted from `s` on. -/
def storedFrom (s : Sim σ) (symbol : σ) : List (Submission σ) → List Order
  | [] => []
  | sub :: subs =>
    (if sub.symbol = symbol ∧ s.Accepts sub then [sub.order] else []) ++ storedFrom (s.submit sub) symbol subs

def stored (subs : List (Submission σ)) (symbol : σ) : List Order := storedFrom start symbol subs

theorem stored_snoc (subs : List (Submission σ)) (sub : Submission σ) (symbol : σ) :
    stored (subs ++ [sub]) symbol =
      stored subs symbol ++ if sub.symbol = symbol ∧ (run subs).Accepts sub then [sub.order] else [] := by
  have hfrom : ∀ s : Sim σ, storedFrom s symbol (subs ++ [sub]) = storedFrom s symbol subs ++
      if sub.symbol = symbol ∧ (subs.foldl submit s).Accepts sub then [sub.order] else [] := by
    induction subs with
    | nil =>
      intro s
      exact List.append_nil _
    | cons x subs ih =>
      intro s
      rw [List.cons_append, storedFrom, storedFrom, ih, List.append_assoc]
      rfl
  exact hfrom start

/-- The orders of a symbol. -/
def ordersOf (subs : List (Submission σ)) (symbol : σ) : List Order :=
  (subs.filter fun sub => decide (sub.symbol = symbol)).map Submission.order

theorem ordersOf_snoc (subs : List (Submission σ)) (sub : Submission σ) (symbol : σ) :
    ordersOf (subs ++ [sub]) symbol = ordersOf subs symbol ++ if sub.symbol = symbol then [sub.order] else [] := by
  unfold ordersOf
  rw [List.filter_append, List.map_append]
  by_cases hsym : sub.symbol = symbol <;> simp [hsym]

theorem stored_sublist (subs : List (Submission σ)) (symbol : σ) :
    (stored subs symbol).Sublist (ordersOf subs symbol) := by
  induction subs using List.reverseRecOn with
  | nil => exact List.Sublist.refl _
  | append_singleton subs sub ih =>
    rw [stored_snoc, ordersOf_snoc]
    refine ih.append ?_
    by_cases hsym : sub.symbol = symbol
    · rw [if_pos hsym]
      split
      · exact List.Sublist.refl _
      · exact List.nil_sublist _
    · rw [if_neg (fun hc => hsym hc.1), if_neg hsym]

theorem stored_of_noReject (hacc : NoReject subs) (symbol : σ) : stored subs symbol = ordersOf subs symbol := by
  induction subs using List.reverseRecOn with
  | nil => rfl
  | append_singleton subs sub ih =>
    obtain ⟨hacc, hsub⟩ := hacc.init
    rw [stored_snoc, ordersOf_snoc, ih hacc]
    simp [hsub]

/-- A rejected order changes nothing of its book. -/
theorem served_rejected (h : ¬ s.Accepts sub) : (s.served sub).ob.bids = (s.book sub.symbol).bids ∧
    (s.served sub).ob.asks = (s.book sub.symbol).asks ∧ (s.served sub).log = [] := by
  rw [accepts_iff] at h
  have hob : (memAwareInsert (s.book sub.symbol) s.mm sub.order
      (symId (findOrCreateBook s.books sub.symbol) sub.symbol)).2.1 = s.book sub.symbol := by
    unfold memAwareInsert insertElsewhere at h ⊢
    split
    · rename_i hroom
      rw [if_pos hroom] at h
      split
      · rfl
      · rename_i hn
        rw [hn] at h
        exact absurd rfl h
    · rename_i hroom
      rw [if_neg hroom] at h
      split
      · rename_i hn
        rw [hn] at h
        exact absurd rfl h
      · rename_i hn
        rw [hn] at h
        dsimp only at h ⊢
        split
        · rename_i hfull
          rw [if_pos hfull] at h
          exact absurd rfl h
        · rfl
  unfold served desk Desk.submit
  dsimp only
  rw [if_neg h, hob]
  exact ⟨rfl, rfl, rfl⟩

/-- The book of a symbol holds the orders `os` have left, and its trades are those of `os`. -/
structure Follows (s : Sim σ) (symbol : σ) (os : List Order) : Prop where
  bids : (s.book symbol).bids.Side false (runOrders orderOps os).2.bids
  asks : (s.book symbol).asks.Side true (runOrders orderOps os).2.asks
  log : s.logOf symbol = (runOrders orderOps os).1.map tradeOf

theorem Follows.other {os : List Order} (h : s.Follows symbol os) (hsym : sub.symbol ≠ symbol) :
    (s.submit sub).Follows symbol os := by
  have hbook : (s.submit sub).book symbol = s.book symbol := by
    rw [book_submit, if_neg (Ne.symm hsym)]
  refine ⟨hbook ▸ h.bids, hbook ▸ h.asks, ?_⟩
  rw [logOf_submit, if_neg (Ne.symm hsym), List.append_nil]
  exact h.log

theorem Follows.reject {os : List Order} (h : s.Follows sub.symbol os) (hno : ¬ s.Accepts sub) :
    (s.submit sub).Follows sub.symbol os := by
  obtain ⟨hb, ha, hl⟩ := served_rejected hno
  refine ⟨?_, ?_, ?_⟩
  · rw [served_book, hb]; exact h.bids
  · rw [served_book, ha]; exact h.asks
  · rw [logOf_submit, if_pos rfl, hl, List.append_nil]
    exact h.log

theorem Follows.accept {os : List Order} (h : s.Follows sub.symbol os) (hacc : s.Accepts sub)
    (hadm : sub.order.Admitted) (hts : orderOps.Aged (os ++ [sub.order])) :
    (s.submit sub).Follows sub.symbol (os ++ [sub.order]) := by
  obtain ⟨hts, -, hlast⟩ := List.pairwise_append.1 hts
  have hfit := runOrders_fit orderOps_lawful hts (s := sub.order.timestamp) fun x hx => hlast x hx _ (by simp)
  obtain ⟨hsync, hlog⟩ := submit_sync (d := s.desk sub.symbol) ⟨h.bids, h.asks⟩
    hfit hadm ((accepts_iff s sub).1 hacc) sub.now
  refine ⟨?_, ?_, ?_⟩
  · rw [served_book, runOrders_snoc]; exact hsync.bids
  · rw [served_book, runOrders_snoc]; exact hsync.asks
  · rw [logOf_submit, if_pos rfl, h.log, runOrders_snoc, List.map_append]
    exact congrArg _ (hlog.trans (List.nil_append _))

theorem follows_start (symbol : σ) : (start : Sim σ).Follows symbol [] := by
  have hempty : ∀ ask, (createHeap 10).Side ask [] := fun ask =>
    ⟨fun i h0 hi => absurd hi (Nat.not_lt_zero _), rfl, fun o ho => by cases ho⟩
  exact ⟨hempty false, hempty true, rfl⟩

theorem run_follows (hadm : ∀ sub ∈ subs, sub.order.Admitted) (hts : orderOps.Aged (ordersOf subs symbol)) :
    (run subs).Follows symbol (stored subs symbol) := by
  induction subs using List.reverseRecOn with
  | nil => exact follows_start symbol
  | append_singleton subs sub ih =>
    have haged := hts.sublist (stored_sublist (subs ++ [sub]) symbol)
    have hinit : orderOps.Aged (ordersOf subs symbol) :=
      hts.sublist (by rw [ordersOf_snoc]; exact List.sublist_append_left _ _)
    have hf := ih (fun x hx => hadm x (by simp [hx])) hinit
    rw [stored_snoc] at haged ⊢
    rw [run_snoc]
    by_cases hsym : sub.symbol = symbol
    · subst hsym
      by_cases hacc : (run subs).Accepts sub
      · rw [if_pos ⟨rfl, hacc⟩] at haged ⊢
        exact hf.accept hacc (hadm sub (by simp)) haged
      · rw [if_neg fun hc => hacc hc.2, List.append_nil]
        exact hf.reject hacc
    · rw [if_neg fun hc => hsym hc.1, List.append_nil]
      exact hf.other hsym

/-- Whatever orders for other symbols come in between and whichever orders are turned down for want of memory:
the trades and the resting orders of a symbol are those of the order book on the orders stored for it, as long as
the timestamps of its orders increase. -/
theorem symbol_books (subs : List (Submission σ)) (symbol : σ) (hadm : ∀ sub ∈ subs, sub.order.Admitted)
    (hts : orderOps.Aged (ordersOf subs symbol)) :
    (run subs).logOf symbol = (runOrders orderOps (stored subs symbol)).1.map tradeOf ∧
      ((run subs).book symbol).bids.orders = (runOrders orderOps (stored subs symbol)).2.bids ∧
      ((run subs).book symbol).asks.orders = (runOrders orderOps (stored subs symbol)).2.asks := by
  have hf := run_follows hadm hts
  exact ⟨hf.log, hf.bids.orders, hf.asks.orders⟩

/-- An ask for symbol 1 between a bid and an ask for symbol 0. -/
def twoSymbols : List (Submission Nat) :=
  [⟨0, ⟨5, 1, 3, false⟩, fun _ => 0⟩, ⟨1, ⟨4, 2, 7, true⟩, fun _ => 0⟩, ⟨0, ⟨5, 3, 2, true⟩, fun _ => 0⟩]

theorem symbol_books_twoSymbols : (run twoSymbols).logOf 0 = [⟨5, 2⟩] ∧
    (run twoSymbols).logOf 0 = (runOrders orderOps (stored twoSymbols 0)).1.map tradeOf :=
  ⟨by decide +kernel,
    (symbol_books twoSymbols 0 (by unfold Order.Admitted; decide) (by unfold Ops.Aged; decide)).1⟩

end HftSim.Golden.Sim
