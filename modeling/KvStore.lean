import KvStore.Base.Prog
import KvStore.Base.CString
import KvStore.Base.Memory
import KvStore.Base.Mutex
import KvStore.Base.ReadOnly
import KvStore.Base.Refine
import KvStore.Base.Guard
import KvStore.Base.Alike
import KvStore.Base.Avoids
import KvStore.Base.Locking
import KvStore.Base.Bucket
import KvStore.Base.Bytes
import KvStore.Base.Chain
import KvStore.Base.Dict
import KvStore.Base.RedBlack
import KvStore.Base.Simulation
import KvStore.Base.Slots
import KvStore.Base.Stream
import KvStore.Base.Table
import KvStore.Base.Tokens
import KvStore.Engine.Call
import KvStore.Engine.Rbtree
import KvStore.Engine.RbtreeGuarded
import KvStore.Engine.RbtreeWalk
import KvStore.Engine.Array
import KvStore.Engine.ArrayHeap
import KvStore.Engine.Mempool
import KvStore.Engine.Dhash
import KvStore.Engine.DhashHeap
import KvStore.Engine.Hash
import KvStore.Engine.HashHeap
import KvStore.Engine.Skiptable
import KvStore.Engine.SkiptablePrint
import KvStore.Engine.Store
import KvStore.Engine.Protocol
import KvStore.Server.Process
import KvStore.Server.Schedule
import KvStore.Spec.MapRules
import KvStore.Spec.Stacks
import KvStore.Spec.Keys
import KvStore.Spec.Script
import KvStore.Spec.Message
import KvStore.Spec.Contents
import KvStore.Spec.Service
import KvStore.Proofs.Array
import KvStore.Proofs.ArrayHeap
import KvStore.Proofs.Dhash
import KvStore.Proofs.DhashHeap
import KvStore.Proofs.Entry
import KvStore.Proofs.Hash
import KvStore.Proofs.HashHeap
import KvStore.Proofs.HashIndex
import KvStore.Proofs.Protocol
import KvStore.Proofs.Tokenizer
import KvStore.Proofs.Contents
import KvStore.Proofs.Frame
import KvStore.Proofs.Missing
import KvStore.Proofs.Reply
import KvStore.Proofs.Complete
import KvStore.Proofs.LineEnd.Harmless
import KvStore.Proofs.LineEnd.Harmful
import KvStore.Proofs.Script
import KvStore.Proofs.Store
import KvStore.Proofs.Locking
import KvStore.Proofs.Agree
import KvStore.Proofs.Accept
import KvStore.Proofs.Alloc
import KvStore.Proofs.Init
import KvStore.Proofs.Schedule
import KvStore.Proofs.Process
import KvStore.Proofs.Delivery
import KvStore.Proofs.Service
import KvStore.Proofs.Clients
import KvStore.Proofs.Mempool
import KvStore.Proofs.MempoolInit
import KvStore.Proofs.Rbtree.Engine
import KvStore.Proofs.Rbtree.Invariant
import KvStore.Proofs.Rbtree.Repr
import KvStore.Proofs.Rbtree.Rotate
import KvStore.Proofs.Rbtree.InsertFixup
import KvStore.Proofs.Rbtree.DeleteFixup
import KvStore.Proofs.Rbtree.Search
import KvStore.Proofs.Rbtree.Insert
import KvStore.Proofs.Rbtree.Delete
import KvStore.Proofs.Rbtree.Ops
import KvStore.Proofs.Rbtree.Detach
import KvStore.Proofs.Rbtree.Depth
import KvStore.Proofs.Rbtree.Dest
import KvStore.Proofs.Rbtree.NilParent
import KvStore.Proofs.Rbtree.StaleParent
import KvStore.Proofs.Rbtree.Turn
import KvStore.Proofs.Rbtree.Inverse
import KvStore.Proofs.Rbtree.Walk
import KvStore.Proofs.Skiptable.Repr
import KvStore.Proofs.Skiptable.Descent
import KvStore.Proofs.Skiptable.Splice
import KvStore.Proofs.Skiptable.Insert
import KvStore.Proofs.Skiptable.Delete
import KvStore.Proofs.Skiptable.Engine
import KvStore.Proofs.Skiptable.Count
import KvStore.Proofs.Skiptable.Access
import KvStore.Proofs.Skiptable.Dest
import KvStore.Proofs.Skiptable.Invariant
import KvStore.Proofs.Skiptable.Print
