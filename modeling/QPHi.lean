import QPHi.RBTree
import QPHi.Theorems.RBTree.Shape
import QPHi.Theorems.RBTree.Rotate
import QPHi.Theorems.RBTree.InsertFix
import QPHi.Theorems.RBTree.DeleteFix
import QPHi.Theorems.RBTree.Delete
import QPHi.Theorems.RBTree.Run
import QPHi.Heap
import QPHi.Lib.Chain
import QPHi.Pool
import QPHi.Theorems.Pool.Single
import QPHi.Theorems.Pool.Manager
import QPHi.Theorems.Pool.ManagerOps
import QPHi.Theorems.Pool.ManagerGrow
import QPHi.Theorems.Pool.Run
import QPHi.Lib.Trans
import QPHi.Lock
import QPHi.Theorems.Lock.Invariant
import QPHi.Theorems.Lock.Run
import QPHi.Theorems.Lock.Exclusion
import QPHi.Cond
import QPHi.Theorems.Cond.Mutex
import QPHi.Theorems.Cond.Wakeup
import QPHi.Lib.Command
import QPHi.Event
import QPHi.Theorems.Event.Caches
import QPHi.Theorems.Event.Descriptors
import QPHi.Theorems.Event.Sources
import QPHi.Theorems.Event.Dispatch
import QPHi.Theorems.Event.Run
import QPHi.Theorems.Event.Ownership
import QPHi.Theorems.Queue
import QPHi.Theorems.TinyStack.Layers
import QPHi.Theorems.TinyStack.Grammar
import QPHi.Theorems.TinyStack.Captured
import QPHi.Theorems.TinyStack.Encode
import QPHi.Process
import QPHi.Theorems.Process
import QPHi.File
import QPHi.Theorems.File.Write
import QPHi.Theorems.File.Read
import QPHi.Theorems.Event.Send
import QPHi.Theorems.Event.Receive
import QPHi.Theorems.RBTree.Find
import QPHi.Theorems.File.Report
import QPHi.Theorems.Pool.Sizing
import QPHi.Theorems.Pool.Failure
import QPHi.Theorems.Pool.Destroy
import QPHi.Theorems.Event.Frame
import QPHi.Theorems.Event.Turn
import QPHi.Theorems.Event.Readiness
import QPHi.Theorems.Event.Parting
import QPHi.Theorems.Event.Destroy
import QPHi.Direct
import QPHi.Theorems.Direct.Range
import QPHi.Theorems.Direct.Reopen
import QPHi.Fd
import QPHi.Theorems.Fd
import QPHi.Theorems.Lock.Destroy
import QPHi.Theorems.Thread.Step
import QPHi.Theorems.Thread.Destroy
import QPHi.Theorems.Thread.Start
import QPHi.Theorems.RBTree.Height
import QPHi.Theorems.TinyStack.Levels
import QPHi.Lib.Slots
import QPHi.Theorems.Pool.Exact
import QPHi.Theorems.Event.Checked
import QPHi.Theorems.Direct.Plain
import QPHi.Theorems.Direct.Ends
import QPHi.Theorems.RBTree.Inverse
import QPHi.Theorems.Wire.Rounds
import QPHi.Theorems.Wire.Run
import QPHi.Theorems.Wire.Delivery
import QPHi.Theorems.Event.Session
import QPHi.Theorems.Pool.Peak
import QPHi.Theorems.RBTree.Deque
import QPHi.Theorems.Event.SessionRun
import QPHi.Lib.Linear
import QPHi.Theorems.Cond.Atomic
import QPHi.Theorems.Lock.Atomic
import QPHi.Theorems.Lock.Progress
import QPHi.Lib.Owned
import QPHi.Objects
import QPHi.Theorems.Objects.Creation
import QPHi.Theorems.Objects.Run
import QPHi.Theorems.File.RoundTrip
import QPHi.Theorems.TinyStack.Payload
import QPHi.System
import QPHi.Theorems.System.Daemon
import QPHi.Theorems.System.Users
