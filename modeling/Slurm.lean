import Slurm.RateLimit.Contract
import Slurm.StepLayout.Contract
import Slurm.Bitstring.Contract
import Slurm.JobResources.Contract
import Slurm.Licenses.AccountingContract
import Slurm.Backfill.Contract
import Slurm.PortMgr.Stepmgr
import Slurm.ExtraConstraints.Contract
import Slurm.Depend.Contract
import Slurm.FedMgr.Contract
import Slurm.AcctPolicy.Contract
import Slurm.Sluid.Contract
import Slurm.Sluid.Uuid
import Slurm.JobArray.Contract
import Slurm.Pmi2.FenceLive
import Slurm.Bitstring.Contiguous
import Slurm.Bitstring.Nth
import Slurm.ReverseTree.Contract
import Slurm.Hostlist.IterateContract
import Slurm.Hostlist.SortContract
import Slurm.Hostlist.SplitContract
import Slurm.Pack.EscapedContract
import Slurm.ParseTime.TimeStrContract
import Slurm.Tres.Contract
import Slurm.Licenses.BackfillEqual
import Slurm.JobResources.PerNodeContract
import Slurm.JobResources.ExtractContract
import Slurm.StepLayout.WireContract
import Slurm.ParseTime.ParseContract
import Slurm.Licenses.StringsContract
import Slurm.XList.Transfer
import Slurm.Clusters.FirstCluster
import Slurm.Xahash.Contract
import Slurm.UrlEncoded.Contract
import Slurm.Features.SetsContract
import Slurm.Features.MatchContract
import Slurm.Gang.Contract
import Slurm.Depend.SavedContract
import Slurm.DistTasks.Whole
import Slurm.DistTasks.Plane
import Slurm.Xcpuinfo.Contract
import Slurm.DataTree.Match
import Slurm.DataTree.Paths
import Slurm.JobId.Contract
import Slurm.CoreSync.Combinations
import Slurm.PowerSave.TokenRate
import Slurm.Pmi2.TempBuffer
import Slurm.Locks.Contract
import Slurm.RpcQueue
