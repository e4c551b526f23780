import RdmaSync.Rdma.Synthetic
import RdmaSync.Rdma.Integrity
import RdmaSync.Match.Rolling
import RdmaSync.Match.Transfer
import RdmaSync.Geometry
import RdmaSync.Mplex.Flush
import RdmaSync.Mplex.Ledger
import RdmaSync.Negotiate
import RdmaSync.Rdma.Preflight
import RdmaSync.SafeArg
import RdmaSync.Paths.Module
import RdmaSync.Paths.Tracking
import RdmaSync.Flist.Confined
import RdmaSync.Filter.Requested
import RdmaSync.Filter.RoundTrip
import RdmaSync.Acl.Attrs
import RdmaSync.Flist.Ndx
import RdmaSync.Flist.NameOrder
import RdmaSync.Flist.Tweaked
import RdmaSync.Paths.NormalForm
import RdmaSync.Paths.Symlink
import RdmaSync.BatchShell
import RdmaSync.Flist.IdMap
import RdmaSync.Bitbag
import RdmaSync.Flist.MergeSort
import RdmaSync.Fuzzy.Distance
import RdmaSync.DeleteDelay
import RdmaSync.Fuzzy.Suffix
import RdmaSync.TmpCache.Runs
