import PracticeHand.Concurrency.Runs
import PracticeHand.Concurrency.Simulation
import PracticeHand.Concurrency.Threads
import PracticeHand.Concurrency.Discipline
import PracticeHand.Concurrency.Counting
import PracticeHand.Concurrency.Progress
import PracticeHand.Concurrency.RingBuffer
import PracticeHand.Arithmetic.OnesComplement
import PracticeHand.Posix.Descriptors
import PracticeHand.Posix.Sockets
import PracticeHand.Streams.Source
import PracticeHand.Streams.Lines
import PracticeHand.Thpool.JobQueue
import PracticeHand.Thpool.Fifo
import PracticeHand.Thpool.Program
import PracticeHand.Thpool.Process
import PracticeHand.Thpool.Moves
import PracticeHand.Thpool.Locks
import PracticeHand.Thpool.Standing
import PracticeHand.Thpool.Stages
import PracticeHand.Thpool.Tokens
import PracticeHand.Thpool.Books
import PracticeHand.Thpool.Handout
import PracticeHand.Thpool.Wait
import PracticeHand.Thpool.Idle
import PracticeHand.Thpool.Destroy
import PracticeHand.Thpool.Outstanding
import PracticeHand.Thpool.Working
import PracticeHand.Thpool.Accounting
import PracticeHand.Thpool.Hold
import PracticeHand.Thpool.Pause
import PracticeHand.Thpool.TwoPools
import PracticeHand.Thpool.Startup
import PracticeHand.Thpool.Effort
import PracticeHand.Thpool.Drain
import PracticeHand.Thpool.Polling
import PracticeHand.Thpool.Shutdown
import PracticeHand.Thpool.Frozen
import PracticeHand.Thpool.PlainUse
import PracticeHand.Thpool.ConcIncrement
import PracticeHand.Thpool.ConcIncrementSum
import PracticeHand.Thpool.ConcIncrementEnds
import PracticeHand.ClientServer.Serv01
import PracticeHand.ClientServer.Serv01Sockets
import PracticeHand.ClientServer.SigInt
import PracticeHand.ClientServer.AcceptLock
import PracticeHand.ClientServer.Serv05
import PracticeHand.ClientServer.Serv05Handout
import PracticeHand.ClientServer.Serv05Pipes
import PracticeHand.ClientServer.Serv08
import PracticeHand.ClientServer.Serv08Queue
import PracticeHand.ClientServer.Serv08Sleepers
import PracticeHand.ClientServer.Serv08Sockets
import PracticeHand.ClientServer.Readline
import PracticeHand.ClientServer.ReadlineResults
import PracticeHand.ClientServer.WebChild
import PracticeHand.ClientServer.WebRequests
import PracticeHand.ClientServer.Exchange
import PracticeHand.ClientServer.ExchangeLinks
import PracticeHand.ClientServer.ExchangeMoves
import PracticeHand.ClientServer.ExchangeHandout
import PracticeHand.ClientServer.ExchangeStates
import PracticeHand.ClientServer.ExchangeEnds
import PracticeHand.Traceroute.Packets
import PracticeHand.Traceroute.Checksum
import PracticeHand.Traceroute.Headers
import PracticeHand.Traceroute.SendV4
import PracticeHand.Traceroute.Traceloop
import PracticeHand.Traceroute.Hops
import PracticeHand.Traceroute.RecvV4
import PracticeHand.Traceroute.Alarm
import PracticeHand.Traceroute.Transcript
