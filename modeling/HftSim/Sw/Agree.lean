import HftSim.Golden.Csv
import HftSim.Sw.Report
import HftSim.TopGolden

/-!
# The report and the golden simulator

`main` of the harness reads the orders of each lane from a file of its own and lets the design trade them;
`csv_execution` of the golden simulator reads those of all symbols from one file. On the same orders symbol by
symbol the report has the simulator's trades, but for the upper bits of the amounts, which the log entries have no
room for.
-/

namespace HftSim

open PriceTime Golden

/-- The rows of an engine. -/
def rowsOf (rows : List TradeRow) (e : Fin 8) : List TradeRow :=
  rows.filter fun r => decide (r.line.engineId = BitVec.ofNat 32 e.val)

def TradeRow.trade (r : TradeRow) : Trade := ⟨r.line.priceCents.toNat, r.line.quantity.toNat⟩

/-- A trade with the seven bits of its amount that are logged. -/
def Golden.Trade.logged (t : Trade) : Trade := ⟨t.price, t.amount % 128⟩

def Golden.CsvOrder.face (o : CsvOrder) : Face := ⟨!o.isAsk, o.price, o.amount⟩

/-- The price and the amount are what a `short` holds of what is not negative. -/
def Golden.CsvOrder.InRange (o : CsvOrder) : Prop := 0 ≤ o.price ∧ o.price < 2 ^ 15 ∧ 0 ≤ o.amount ∧ o.amount < 2 ^ 15

instance (o : CsvOrder) : Decidable o.InRange := inferInstanceAs (Decidable (_ ∧ _))

/-- What `csv_execution` submits, with the clock readings. -/
def csvSubs (clock : Nat → Nat) (now : Nat → Nat → Nat) (os : List CsvOrder) : List (Submission (List Char)) :=
  os.mapIdx fun k o => ⟨o.symbol, ⟨o.price, clock k, o.amount, o.isAsk⟩, now k⟩

/-! ### Lists with an index -/

theorem map_filter_mapIdx {α β γ : Type*} {f : Nat → α → β} {p : β → Bool} {q : α → Bool} {g : β → γ} {k : α → γ}
    (hp : ∀ i x, p (f i x) = q x) (hg : ∀ i x, g (f i x) = k x) (l : List α) :
    ((l.mapIdx f).filter p).map g = (l.filter q).map k := by
  induction l generalizing f with
  | nil => rfl
  | cons x l ih =>
    have ih := ih (f := fun i => f (i + 1)) (fun i x => hp (i + 1) x) fun i x => hg (i + 1) x
    rw [List.mapIdx_cons, List.filter_cons, List.filter_cons, hp]
    split
    · rw [List.map_cons, List.map_cons, hg, ih]
    · exact ih

/-! ### The rows -/

theorem rowsOf_tradeRow (merged : List (Fin 8 × Node)) (e : Fin 8) :
    (rowsOf (merged.mapIdx tradeRow) e).map TradeRow.trade =
      (Top.tradesBy merged e).map fun n => (nodeTrade n).logged := by
  rw [rowsOf, Top.tradesBy, List.map_map]
  refine map_filter_mapIdx (fun i p => ?_) (fun i p => ?_) merged
  · have hiff : BitVec.ofNat 32 p.1.val = BitVec.ofNat 32 e.val ↔ p.1 = e := by
      rw [← BitVec.toNat_inj, Fin.ext_iff, BitVec.toNat_ofNat, BitVec.toNat_ofNat]
      omega
    exact decide_eq_decide.2 hiff
  · have hprice : ((orderPrice p.2).setWidth 32).toNat = (orderPrice p.2).toNat := by
      have := (orderPrice p.2).isLt
      rw [BitVec.toNat_setWidth]
      omega
    have hamount : (((orderAmount p.2).extractLsb' 0 7).setWidth 32).toNat = (orderAmount p.2).toNat % 128 := by
      rw [BitVec.toNat_setWidth, BitVec.extractLsb'_toNat]
      omega
    show Trade.mk (((orderPrice p.2).setWidth 32).toNat : Int)
      ((((orderAmount p.2).extractLsb' 0 7).setWidth 32).toNat : Int) = _
    rw [hprice, hamount]
    rfl

/-! ### The golden simulator's orders -/

variable {clock : Nat → Nat} {now : Nat → Nat → Nat} {os : List CsvOrder} {symbol : List Char}

theorem ordersOf_csvSubs : (Sim.ordersOf (csvSubs clock now os) symbol).map orderFace =
    (os.filter fun o => decide (o.symbol = symbol)).map CsvOrder.face := by
  rw [Sim.ordersOf, List.map_map, csvSubs]
  refine map_filter_mapIdx (fun k o => ?_) (fun k o => ?_) os
  · rfl
  · rfl

theorem admitted_csvSubs (h : ∀ o ∈ os, o.InRange) : ∀ sub ∈ csvSubs clock now os, sub.order.Admitted := by
  intro sub hsub
  obtain ⟨k, hk, rfl⟩ := List.mem_mapIdx.1 hsub
  obtain ⟨h1, -, h2, h3⟩ := h _ (List.getElem_mem hk)
  exact ⟨h1, h2, h3⟩

/-- Orders created one after the other within a second. -/
theorem aged_csvSubs (h : ∀ i j, i < j → j < os.length → clock i < clock j) :
    orderOps.Aged (Sim.ordersOf (csvSubs clock now os) symbol) := by
  have hall : (csvSubs clock now os).Pairwise fun x y => x.order.timestamp < y.order.timestamp := by
    rw [List.pairwise_iff_getElem]
    intro i j hi hj hij
    simp only [csvSubs, List.getElem_mapIdx]
    exact h i j hij (by simpa [csvSubs] using hj)
  exact List.pairwise_map.2 (hall.sublist List.filter_sublist)

/-- From the files to the outputs: if `main` reports trades, and the golden simulator gets the orders that lane `e`
has got from its file under the name `name e`, in any interleaving, and turns none down, then the rows of engine `e`
are the simulator's trades of that symbol. -/
theorem report_agrees_with_golden (wall : Nat → UInt64) (env : MainEnv) (js : List MainIn)
    (hkeys : ∀ j ∈ js, j.key.getLsbD 0 = true) (hlen : js.length < 2 ^ 32) (rows : List TradeRow)
    (hrows : (Session.run wall env js).sw.exit.bind Exit.rows = some rows)
    (clock : Nat → Nat) (now : Nat → Nat → Nat) (line file : List Char) (os : List CsvOrder)
    (name : Fin 8 → List Char) (hos : csvOrders line file = some os) (hrange : ∀ o ∈ os, o.InRange)
    (hclock : ∀ i j, i < j → j < os.length → clock i < clock j)
    (hsame : ∀ e, (stock (Load.fileOrders (Main.files env)) e).map dispatchFace =
      (os.filter fun o => decide (o.symbol = name e)).map CsvOrder.face)
    (hacc : Sim.NoReject (csvSubs clock now os)) :
    ∃ s, csvExecution clock now line file = some s ∧
      ∀ e, (rowsOf rows e).map TradeRow.trade = (s.logOf (name e)).map Trade.logged := by
  obtain ⟨e, hexit, hrows⟩ := Option.bind_eq_some_iff.1 hrows
  obtain ⟨nodes, merged, hstamped, htrades, rfl⟩ := Session.complete hkeys hlen hexit hrows
  refine ⟨Sim.run (csvSubs clock now os), by rw [csvExecution, hos]; rfl, fun e => ?_⟩
  have hgolden := ((hstamped e).golden (admitted_csvSubs hrange) ((hsame e).trans ordersOf_csvSubs.symm)
    (aged_csvSubs hclock) hacc).1
  rw [rowsOf_tradeRow, htrades, ← hgolden, List.map_map]
  rfl

/-- `Bid,AAA,5,3` and `Ask,AAA,5,2`. -/
def crossingCsv : List Char :=
  ['B', 'i', 'd', ',', 'A', 'A', 'A', ',', '5', ',', '3', '\n', 'A', 's', 'k', ',', 'A', 'A', 'A', ',', '5', ',', '2',
    '\n']

theorem report_agrees_with_golden_crossing : ∃ s, csvExecution id (fun _ _ => 0) [] crossingCsv = some s ∧
    ∀ e : Fin 8, (rowsOf [⟨0, 25, 0x00020005, ⟨0, 2, 5, 25⟩⟩] e).map TradeRow.trade =
      (s.logOf (if e = 0 then ['A', 'A', 'A'] else [])).map Trade.logged :=
  report_agrees_with_golden _ _ crossingRun (by decide) (by decide) _ crossingRun_rows id (fun _ _ => 0) [] crossingCsv
    [⟨false, ['A', 'A', 'A'], 5, 3⟩, ⟨true, ['A', 'A', 'A'], 5, 2⟩] (fun e => if e = 0 then ['A', 'A', 'A'] else [])
    (by decide +kernel) (by decide) (fun _ _ h _ => h) (by decide +kernel) (by decide +kernel)

end HftSim
