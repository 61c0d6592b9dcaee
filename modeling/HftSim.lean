import HftSim.Lib.BinHeap
import HftSim.Lib.PriceTime
import HftSim.Lib.Progress
import HftSim.Lib.Ring
import HftSim.Lib.RoundRobin
import HftSim.Lib.Stdio
import HftSim.EngineCommands
import HftSim.HeapCapacity
import HftSim.DualFifo
import HftSim.BankArray
import HftSim.HeapUncached
import HftSim.EngineRefines
import HftSim.EnginePages
import HftSim.MmuDelivery
import HftSim.MmuGuard
import HftSim.Dispatcher
import HftSim.TradeLog
import HftSim.TopPriority
import HftSim.TopComplete
import HftSim.TopGolden
import HftSim.Golden.Agree
import HftSim.Golden.Frames
import HftSim.Golden.Ties
import HftSim.Golden.FirstCome
import HftSim.Golden.Files
import HftSim.Golden.Csv
import HftSim.Golden.Stats
import HftSim.Sw.Harness
import HftSim.Sw.Load
import HftSim.Sw.Reset
import HftSim.Sw.Finish
import HftSim.Sw.LogRead
import HftSim.Sw.Report
import HftSim.Sw.Ends
import HftSim.Sw.Agree
