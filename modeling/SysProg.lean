import SysProg.Transition.Steps
import SysProg.Data.LinkedQueue
import SysProg.Pool.Step
import SysProg.Pool.Moves
import SysProg.Pool.Shutdown
import SysProg.Pool.ExactlyOnce
import SysProg.Pool.Fifo
import SysProg.Pool.Wakeup
import SysProg.Threads.Serial
import SysProg.Threads.Independence
import SysProg.Threads.Numbers
import SysProg.Threads.FirstCome
import SysProg.Bulletin.Exclusion
import SysProg.Bulletin.Startup
import SysProg.Bulletin.Pull
import SysProg.Bulletin.Release
import SysProg.Bulletin.Framing
import SysProg.Bulletin.Outside
import SysProg.Bulletin.Ring
import SysProg.Bulletin.Typing
import SysProg.Services.Quiescence
import SysProg.Services.Commute
import SysProg.Services.Channels
import SysProg.Services.Announce
import SysProg.Services.Missing
import SysProg.Services.Path
import SysProg.Threads.Preemption
import SysProg.Services.Session
import SysProg.Pool.Completion
import SysProg.Bulletin.Answered
import SysProg.Bulletin.Served
import SysProg.Bulletin.Heard
import SysProg.Bulletin.Storage
import SysProg.Threads.Sequential
import SysProg.Pool.Desk
import SysProg.Pool.Bench
import SysProg.Pool.Passing
import SysProg.Services.Reading
