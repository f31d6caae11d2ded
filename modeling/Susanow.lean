import Susanow.Base.Proc
import Susanow.Base.Runs
import Susanow.Base.RoundRobin
import Susanow.Base.Tickets
import Susanow.Base.Hex
import Susanow.Base.FirstMatch
import Susanow.Base.Leading
import Susanow.Base.Decimal
import Susanow.Base.Words
import Susanow.Base.Links
import Susanow.Crow.Json
import Susanow.Crow.Routing
import Susanow.Crow.Spelling
import Susanow.Crow.Compacting
import Susanow.Crow.Dispatch
import Susanow.Crow.RoundTrip
import Susanow.Lthread.Qnodes
import Susanow.Lthread.Passing
import Susanow.Lthread.Fifo
import Susanow.Lthread.Returning
import Susanow.Ma.Accessor
import Susanow.Ma.Port
import Susanow.Ma.Ring
import Susanow.Ma.Agreement
import Susanow.Ma.Reconfiguring
import Susanow.Ma.Reshaping
import Susanow.Ma.Counting
import Susanow.Ma.SingleRing
import Susanow.Thread.Launching
import Susanow.Thread.Green
import Susanow.Thread.Registering
import Susanow.Thread.Reaping
import Susanow.Nfvi.Attachment
import Susanow.Nfvi.Patching
import Susanow.Nfvi.Allocating
import Susanow.Nfvi.Stopping
import Susanow.Nfvi.Rollback
import Susanow.Nfvi.Deleting
import Susanow.Nfvi.Masking
import Susanow.Nfvi.Joining
import Susanow.Nfvi.Tables
import Susanow.Nfvi.Guarding
import Susanow.Nfvi.Deploying
import Susanow.Nfvi.Equipping
import Susanow.Nfvi.Deployable
import Susanow.Nfvi.PciAddress
import Susanow.Nfvi.Http
import Susanow.Nfvi.Encoding
import Susanow.Nfvi.Timers
import Susanow.Nfvi.Resetting
import Susanow.Nfvi.Access
import Susanow.Nfvi.Numbering
import Susanow.Nfvi.Forgetting
import Susanow.Nfvi.Holding
import Susanow.Nfvi.Lockstep
import Susanow.Nfvi.Ticks
import Susanow.Nfvi.Panel
import Susanow.Nfvi.Reduction
import Susanow.Vnfs.L2fwd
import Susanow.Vnfs.Acl
import Susanow.Vnfs.AclRules
import Susanow.Vnfs.L3fwd
import Susanow.Vnfs.Sending
import Susanow.Vnfs.Routing
import Susanow.Pmd.Pipe
import Susanow.Pmd.Accounting
import Susanow.Pmd.Lifecycle
