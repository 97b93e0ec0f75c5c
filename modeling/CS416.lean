import CS416.Sfs.Attr
import CS416.Sfs.Append
import CS416.Sfs.Accounting
import CS416.Sfs.Isolation
import CS416.Sfs.Overwrite
import CS416.Sfs.OpenHandles
import CS416.Sfs.Mount
import CS416.Lib.Holdings
import CS416.Malloc.Heap
import CS416.Malloc.Pages
import CS416.Malloc.Calls
import CS416.Malloc.Live
import CS416.Paging.Faults
import CS416.Threads.Timer
import CS416.Threads.Invariant
import CS416.Sfs.ReadRange
import CS416.Sfs.Release
import CS416.Sfs.RemoveEntry
import CS416.Sfs.Recycle
import CS416.Sfs.DirText
import CS416.Sfs.CreateUnlink
import CS416.Sfs.FullTables
import CS416.Sfs.WriteLimit
import CS416.Threads.Overtaking
import CS416.Sfs.GetBlock
import CS416.Paging.Swap
import CS416.Threads.Priorities
import CS416.Threads.Ids
import CS416.Threads.JoinCodes
import CS416.Threads.Slices
import CS416.Threads.Selection
import CS416.Threads.MutexCalls
import CS416.Threads.MutexCycle
import CS416.Threads.Places
import CS416.Threads.JoinResults
import CS416.Threads.Handover
import CS416.Threads.Queue
import CS416.Paging.Protection
import CS416.Paging.Freeing
import CS416.Paging.Admission
import CS416.Sfs.Listing
import CS416.Sfs.ReservedArea
import CS416.Sfs.Remount
import CS416.Threads.VectorMultiply
import CS416.Sfs.DiskFile
import CS416.Sfs.FileFrames
import CS416.Sfs.FileStore
import CS416.Sfs.StoredBytes
