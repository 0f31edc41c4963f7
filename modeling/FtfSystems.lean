import FtfSystems.LinuxKernel.HeaviestAncestor
import FtfSystems.Shell.ArgBounds
import FtfSystems.Shell.BackgroundSign
import FtfSystems.Shell.CatOutput
import FtfSystems.Shell.ChangeDir
import FtfSystems.Shell.Foreground
import FtfSystems.Shell.IoRuns
import FtfSystems.Shell.JobListing
import FtfSystems.Shell.NumberArgs
import FtfSystems.Shell.PipeWaits
import FtfSystems.Shell.Pipeline
import FtfSystems.Shell.Plumbing
import FtfSystems.Shell.Redirection
import FtfSystems.Shell.ResumeStopped
import FtfSystems.Shell.StopForeground
import FtfSystems.Shell.StoppedJobs
import FtfSystems.VirtualMemory.CallocProduct
import FtfSystems.VirtualMemory.Malloc1.ReadBack
import FtfSystems.VirtualMemory.Malloc1.ReallocCopy
import FtfSystems.VirtualMemory.Malloc2.Fragmentation
import FtfSystems.VirtualMemory.Malloc2.ReadBack
import FtfSystems.VirtualMemory.Malloc2.ReallocLower
import FtfSystems.VirtualMemory.Malloc2.Statistics
import FtfSystems.VirtualMemory.Malloc2.Undo
import FtfSystems.VirtualMemory.ReallocFailure
import FtfSystems.WebServer.BufferSizes
import FtfSystems.WebServer.Children
import FtfSystems.WebServer.Connections
import FtfSystems.WebServer.Drain
import FtfSystems.WebServer.DropHead
import FtfSystems.WebServer.Frames
import FtfSystems.WebServer.LockDiscipline
import FtfSystems.WebServer.QueueHistory
import FtfSystems.WebServer.RandomDrop
import FtfSystems.WebServer.ReadHeaders
import FtfSystems.WebServer.Responses
import FtfSystems.WebServer.ThreadStats
import FtfSystems.WebServer.WakeUps
