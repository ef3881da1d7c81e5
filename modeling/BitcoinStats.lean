import BitcoinStats.ArgumentRoundTrip
import BitcoinStats.Base58Buffer
import BitcoinStats.Base58Decoder
import BitcoinStats.BigNumberOperations
import BitcoinStats.BlockBounds
import BitcoinStats.BlockLimit
import BitcoinStats.Commands
import BitcoinStats.CommentSymbol
import BitcoinStats.Crc32
import BitcoinStats.DayNumbers
import BitcoinStats.FallbackScan
import BitcoinStats.FormatNumber
import BitcoinStats.HeapSort
import BitcoinStats.HeightLoop
import BitcoinStats.HeightTable
import BitcoinStats.IndexedTransactions
import BitcoinStats.KeyAddresses
import BitcoinStats.KeyBounds
import BitcoinStats.LevelDB.LogDamage
import BitcoinStats.LevelDB.OpenDatabase
import BitcoinStats.LineTokens
import BitcoinStats.LongestBranch
import BitcoinStats.MultisigIdentity
import BitcoinStats.NextBlockHash
import BitcoinStats.ParsedLines
import BitcoinStats.ParserBuffers
import BitcoinStats.RandPool
import BitcoinStats.RecordBounds
import BitcoinStats.RejectedBlocks
import BitcoinStats.ScanGaps
import BitcoinStats.ScriptLimits
import BitcoinStats.StandardScripts
import BitcoinStats.TextSearch
import BitcoinStats.TruncatedKeys
import BitcoinStats.VariableLengthInteger
import BitcoinStats.WakeupThread
