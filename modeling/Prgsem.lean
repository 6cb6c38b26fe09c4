import Prgsem.Shared.CMemory
import Prgsem.Messages
import Prgsem.Wire
import Prgsem.Codec
import Prgsem.OwnQueue
import Prgsem.Shared.Fifo
import Prgsem.Shared.Run
import Prgsem.QueueRefinement
import Prgsem.Keyboard
import Prgsem.QueueInterleaving
import Prgsem.EventOwnership
import Prgsem.MainThread
import Prgsem.BufferBounds
import Prgsem.FrameHandling
import Prgsem.StreamFraming
import Prgsem.Checksum
import Prgsem.CodecBounds
import Prgsem.SendMessage
import Prgsem.KeysToWire
import Prgsem.FrameDispatch
import Prgsem.Results
import Prgsem.Shared.Writes
import Prgsem.Shared.Ring
import Prgsem.Firmware.Messages
import Prgsem.Firmware.Receive
import Prgsem.Firmware.Protocol
import Prgsem.Firmware.Transmit
import Prgsem.Firmware.MainLoop
import Prgsem.ResultCells
import Prgsem.KeyboardLoop
import Prgsem.LockDiscipline
import Prgsem.RingQueue
import Prgsem.Redraw
import Prgsem.Firmware.ReceiveProgress
import Prgsem.Firmware.Decode
import Prgsem.Firmware.EndToEnd
import Prgsem.Firmware.Interop
import Prgsem.Firmware.Job
import Prgsem.Firmware.Led
import Prgsem.Firmware.Silence
import Prgsem.RingLosses
import Prgsem.Shared.Monitor
import Prgsem.Threads.LostSignal
import Prgsem.RingSleepers
import Prgsem.Application
import Prgsem.Quitting
