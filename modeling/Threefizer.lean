import Threefizer.Controller
import Threefizer.EndMarker
import Threefizer.FirstError
import Threefizer.ChunkSize
import Threefizer.Stretching
import Threefizer.NoHash
import Threefizer.Leftover
import Threefizer.Progress
import Threefizer.HeaderReject
import Threefizer.ArrayQueue
import Threefizer.CbcSplit
import Threefizer.IvChange
import Threefizer.MacInput
import Threefizer.CbcTextbook
import Threefizer.KeyFile
import Threefizer.CommandLine
import Threefizer.ReaderRun
import Threefizer.WriterSize
import Threefizer.OptionConflict
import Threefizer.HeaderValid
import Threefizer.RoomKept
import Threefizer.ThreefishRounds
import Threefizer.SkeinStream
import Threefizer.SkeinBits
import Threefizer.RunThreefizer
import Threefizer.Memory
import Threefizer.Lib.Heap
import Threefizer.ScryptMix
import Threefizer.ScryptMemory
import Threefizer.SkeinUbi
import Threefizer.SkeinIv
import Threefizer.Interruption
import Threefizer.OptionOrder
import Threefizer.TempName
import Threefizer.Format
import Threefizer.Lib.Rounds
import Threefizer.Laps
import Threefizer.EncryptRounds
import Threefizer.Stopped
import Threefizer.DecryptRounds
