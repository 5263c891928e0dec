import FtjSsdSim.Library.Loop
import FtjSsdSim.Engine.Ecc
import FtjSsdSim.Hdl.Ecc
import FtjSsdSim.Hdl.BdiEncoder
import FtjSsdSim.Hdl.BdiStream
import FtjSsdSim.Hdl.Compressor
import FtjSsdSim.Library.TicketRing
import FtjSsdSim.Engine.RingBuffer
import FtjSsdSim.Engine.Controller
import FtjSsdSim.Library.PageMap
import FtjSsdSim.Engine.Mapping
import FtjSsdSim.Engine.Collection
import FtjSsdSim.Engine.Writing
import FtjSsdSim.Engine.WriteRuns
import FtjSsdSim.Engine.StoredEcc
import FtjSsdSim.Engine.Reading
import FtjSsdSim.Engine.ReadYourWrites
import FtjSsdSim.Engine.BurstCoalescer
import FtjSsdSim.Engine.Provenance
import FtjSsdSim.Engine.FreePages
import FtjSsdSim.Engine.FailedWrites
import FtjSsdSim.Engine.Bounds
import FtjSsdSim.Engine.FlushFrame
import FtjSsdSim.Engine.RingFifo
import FtjSsdSim.Hdl.GarbageCollection
import FtjSsdSim.Hdl.NandFlash
import FtjSsdSim.Hdl.Axi
import FtjSsdSim.Hdl.NandSystem
import FtjSsdSim.Hdl.DataIntegrity
import FtjSsdSim.Hdl.SystemProgress
import FtjSsdSim.Engine.FlushLoop
import FtjSsdSim.Engine.Staged
import FtjSsdSim.Hdl.SubmissionQueue
import FtjSsdSim.Engine.DriveCalls
import FtjSsdSim.Hdl.AxiSafety
import FtjSsdSim.Hdl.WearLeveling
import FtjSsdSim.Engine.Reclaim
import FtjSsdSim.Engine.DataBlind
import FtjSsdSim.Library.Stream
import FtjSsdSim.Hdl.WordSerializer
import FtjSsdSim.Hdl.CompressorStalls
import FtjSsdSim.Hdl.ByteAssembler
import FtjSsdSim.Engine.VictimPass
import FtjSsdSim.Engine.SpareWrite
import FtjSsdSim.Library.Tally
import FtjSsdSim.Engine.ValidCounts
import FtjSsdSim.Engine.BitErrors
import FtjSsdSim.Engine.VirtualDisk
import FtjSsdSim.Hdl.CompressorTelemetry
import FtjSsdSim.Hdl.VictimScan
import FtjSsdSim.Hdl.ChipTop
import FtjSsdSim.Engine.Ledger
import FtjSsdSim.Engine.WriteAmplification
import FtjSsdSim.Engine.HotCounters
import FtjSsdSim.Engine.Zones
import FtjSsdSim.Library.LexPaths
import FtjSsdSim.Library.ByteFile
import FtjSsdSim.Vdisk.FileData
import FtjSsdSim.Vdisk.FileNodeMap
import FtjSsdSim.Vdisk.Callbacks
import FtjSsdSim.Vdisk.References
import FtjSsdSim.Library.NameTree
import FtjSsdSim.Vdisk.Volume
import FtjSsdSim.Vdisk.Store
import FtjSsdSim.Vdisk.Invariant
import FtjSsdSim.Vdisk.Calls
import FtjSsdSim.Vdisk.NameCalls
import FtjSsdSim.Vdisk.Creation
import FtjSsdSim.Vdisk.Rename
import FtjSsdSim.Library.Paging
import FtjSsdSim.Vdisk.Directory
import FtjSsdSim.Vdisk.Mounting
import FtjSsdSim.Vdisk.Runs
import FtjSsdSim.Vdisk.ReadBack
