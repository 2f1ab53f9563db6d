import StockFeed.PacketBudget
import StockFeed.BatchAlignment
import StockFeed.DoneLoopFilter
import StockFeed.QueryInsertion
import StockFeed.FrameGrammar
import StockFeed.TcpStream
import StockFeed.AssignedPair
import StockFeed.PrintMemory
import StockFeed.UnreportedPair
import StockFeed.ClientCapture
