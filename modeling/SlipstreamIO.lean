import SlipstreamIO.ThreadedList
import SlipstreamIO.Runs
import SlipstreamIO.ChainInvariants
import SlipstreamIO.Chains
import SlipstreamIO.EngineState
import SlipstreamIO.Enter
import SlipstreamIO.EnterRefinement
import SlipstreamIO.EnterSimulation
import SlipstreamIO.Completions
import SlipstreamIO.CompletionSpecs
import SlipstreamIO.CompletionStream
import SlipstreamIO.ConnectTries
import SlipstreamIO.Conservation
import SlipstreamIO.ChainVerdicts
import SlipstreamIO.LinkChains
import SlipstreamIO.StalledQueue
import SlipstreamIO.ChainProgress
import SlipstreamIO.IndexedBag
import SlipstreamIO.FixedTable
import SlipstreamIO.ParkedTable
import SlipstreamIO.WaitingBag
import SlipstreamIO.ParkedMirror
import SlipstreamIO.TableRuns
import SlipstreamIO.TableRegs
import SlipstreamIO.ParkedKeeps
import SlipstreamIO.EpollCover
import SlipstreamIO.ParkedGather
import SlipstreamIO.EpollDelivery
import SlipstreamIO.KqueueWakes
import SlipstreamIO.DispatchWakes
import SlipstreamIO.DispatchPool
import SlipstreamIO.WokenOps
import SlipstreamIO.ReadyBackends
import SlipstreamIO.InotifyOverflow
import SlipstreamIO.SetReplay
import SlipstreamIO.SignalSources
import SlipstreamIO.DirectSlots
import SlipstreamIO.DirectInstalls
import SlipstreamIO.Descriptors
import SlipstreamIO.TableOwnership
import SlipstreamIO.DirectoryDiff
import SlipstreamIO.InotifyLastWord
import SlipstreamIO.InotifyMemory
import SlipstreamIO.StaleBacklog
import SlipstreamIO.SyscallSwitch
import SlipstreamIO.Framing
import SlipstreamIO.InotifyFraming
import SlipstreamIO.CtlPipe
import SlipstreamIO.CompletionWakeups
import SlipstreamIO.SelectPass
import SlipstreamIO.DispatchDoor
import SlipstreamIO.DoorKnocks
import SlipstreamIO.PosixTry
import SlipstreamIO.PosixMachine
import SlipstreamIO.CoreFrames
import SlipstreamIO.LiveOps
import SlipstreamIO.PosixWrites
import SlipstreamIO.PosixRefines
import SlipstreamIO.PosixSteps
import SlipstreamIO.PosixLabels
import SlipstreamIO.CancelAnswers
import SlipstreamIO.CancelRaces
import SlipstreamIO.Bystanders
import SlipstreamIO.ChainOrder
import SlipstreamIO.MultishotVoice
import SlipstreamIO.EnterSleeps
import SlipstreamIO.StartOrder
import SlipstreamIO.IocpPort
import SlipstreamIO.IocpRefines
import SlipstreamIO.IocpVoice
import SlipstreamIO.IocpCustody
import SlipstreamIO.IocpSockets
import SlipstreamIO.WorkerTickets
import SlipstreamIO.CursorLoads
import SlipstreamIO.WaitRoom
import SlipstreamIO.Timeouts
import SlipstreamIO.BlockSlices
import SlipstreamIO.RingSetup
import SlipstreamIO.FileChannel
import SlipstreamIO.FileSlots
import SlipstreamIO.ProvidedBuffers
import SlipstreamIO.BufferAccounts
import SlipstreamIO.SubmissionRing
import SlipstreamIO.DirectoryMoves
import SlipstreamIO.BlockingReads
import SlipstreamIO.MoveCookies
import SlipstreamIO.RecvmsgLayout
import SlipstreamIO.RingMessages
import SlipstreamIO.WaitBatches
import SlipstreamIO.TimedEnter
import SlipstreamIO.ParkedSet
import SlipstreamIO.TmpfileCalls
import SlipstreamIO.TmpfileViews
import SlipstreamIO.TmpfileOutline
import SlipstreamIO.TmpfileTurns
import SlipstreamIO.TmpfileSafe
import SlipstreamIO.TmpfilePrivate
import SlipstreamIO.SignalPump
import SlipstreamIO.InotifyReads
import SlipstreamIO.DispatchClose
