import AuroraLtfs.Index.Writer
import AuroraLtfs.Index.Atomicity
import AuroraLtfs.Index.Frame
import AuroraLtfs.Index.Success
import AuroraLtfs.Lib.ByteFile
import AuroraLtfs.Lib.Segments
import AuroraLtfs.Raw.Access
import AuroraLtfs.Raw.Contents
import AuroraLtfs.Raw.ReadLoop
import AuroraLtfs.Raw.Refinement
import AuroraLtfs.Raw.Books
import AuroraLtfs.Raw.Cleanup
import AuroraLtfs.Sched.File
import AuroraLtfs.Sched.FileSpec
import AuroraLtfs.Sched.Read
import AuroraLtfs.Sched.Refinement
import AuroraLtfs.Fs.Accounting
import AuroraLtfs.Fs.Handles
import AuroraLtfs.Lock.Exclusive
import AuroraLtfs.Lock.Orderly
import AuroraLtfs.Mount.ReadOnly
import AuroraLtfs.Index.BackChain
import AuroraLtfs.Sched.Report
import AuroraLtfs.Sched.Shutdown
import AuroraLtfs.Load.LastIndex
import AuroraLtfs.Mrsw.New
import AuroraLtfs.Incj.Keys
import AuroraLtfs.Incj.Complete
import AuroraLtfs.Sched.AltExtents
import AuroraLtfs.Sched.Fcfs
import AuroraLtfs.Text.Base64
import AuroraLtfs.Text.Nametype
import AuroraLtfs.Fs.UidOrder
import AuroraLtfs.Criteria.Match
import AuroraLtfs.Criteria.Accepted
import AuroraLtfs.Time.Text
import AuroraLtfs.Index.Stream
import AuroraLtfs.Load.CheckExtents
import AuroraLtfs.Lock.DirtyLock
import AuroraLtfs.Backend.FileAttribute
import AuroraLtfs.Cache.Pool
import AuroraLtfs.Mam.Label
import AuroraLtfs.Mam.MediaPool
