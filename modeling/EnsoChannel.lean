import EnsoChannel.Delivery
import EnsoChannel.Wake
import EnsoChannel.Boundary
import EnsoChannel.Drain
import EnsoChannel.Poison
import EnsoChannel.LockFree
import EnsoChannel.Unwinding
import EnsoChannel.Batch
import EnsoChannel.Paths
import EnsoChannel.Snapshot
import EnsoChannel.Refinement
import EnsoChannel.Mpsc
import EnsoChannel.WaitFree
import EnsoChannel.AtRest
import EnsoChannel.Builds
import EnsoChannel.Iterate
import EnsoChannel.Leaks
import EnsoChannel.SendOnce
import EnsoChannel.Recyclers
import EnsoChannel.Quiescence
import EnsoChannel.Create
import EnsoChannel.Plain
