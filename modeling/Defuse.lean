import Defuse.Lib.Runs
import Defuse.Lib.Counting
import Defuse.Lib.Chunks
import Defuse.Lib.Outcomes
import Defuse.Lib.Procs
import Defuse.Spec.FileHandles
import Defuse.Proofs.TableSound
import Defuse.Proofs.DenseList
import Defuse.Lib.Strings
import Defuse.Lib.Words
import Defuse.Spec.MountPoints
import Defuse.Lib.Scan
import Defuse.Spec.MountOptions
import Defuse.Spec.MountsFile
import Defuse.Proofs.MountLine
import Defuse.Spec.SharedSpace
import Defuse.Proofs.SaveRestore
import Defuse.Proofs.ExecHistory
import Defuse.Proofs.HandleLifetime
import Defuse.Proofs.OpenAtomic
import Defuse.Lib.Buffer
import Defuse.Lib.Paths
import Defuse.Spec.Util
import Defuse.Proofs.ResolvePath
import Defuse.Proofs.PathDispatch
import Defuse.Spec.UsfsWrap
import Defuse.Proofs.Confinement
import Defuse.Proofs.ResolveNormal
import Defuse.Spec.ReadWrite
import Defuse.Proofs.SharedOffset
import Defuse.Proofs.CallExits
import Defuse.Spec.Wrappers
import Defuse.Proofs.BackendResults
import Defuse.Spec.SshfsCache
import Defuse.Proofs.CacheCoherence
import Defuse.Spec.Errno
import Defuse.Spec.HdfsRead
import Defuse.Proofs.ReceivePackets
import Defuse.Proofs.ReadFile
import Defuse.Proofs.Requests
import Defuse.Spec.HdfsSend
import Defuse.Proofs.SendPackets
import Defuse.Proofs.WriteRetry
import Defuse.Proofs.ExactPackets
import Defuse.Spec.Cluster
import Defuse.Spec.HdfsWrite
import Defuse.Proofs.DoWrite
import Defuse.Proofs.Shrink
import Defuse.Proofs.WriteBuffers
import Defuse.Proofs.SaveAround
import Defuse.Proofs.WriteFile
import Defuse.Proofs.OverlayWrite
import Defuse.Proofs.Standing
import Defuse.Proofs.KeepsData
import Defuse.Proofs.ExactCounts
import Defuse.Proofs.MuslCounts
import Defuse.Proofs.DupInStep
import Defuse.Proofs.SeekAgrees
import Defuse.Proofs.RestoreBytes
import Defuse.Proofs.SpaceSize
import Defuse.Proofs.SpaceHeld
import Defuse.Proofs.MountsRead
import Defuse.Proofs.BlockLayout
import Defuse.Proofs.ShrinkExact
import Defuse.Proofs.OnePacket
import Defuse.Lib.Leb128
import Defuse.Spec.Framing
import Defuse.Spec.HdfsHandles
import Defuse.Proofs.FramedReply
import Defuse.Proofs.IndexRange
import Defuse.Proofs.OpenFlags
import Defuse.Proofs.RequestIds
import Defuse.Proofs.HandleIdentity
import Defuse.Spec.NamenodeConnection
import Defuse.Proofs.ConnectionUse
import Defuse.Spec.WrapModule
import Defuse.Proofs.ResolveDentry
import Defuse.Proofs.ModuleRuns
import Defuse.Proofs.CreateReports
import Defuse.Proofs.EntryInodes
import Defuse.Proofs.References
import Defuse.Lib.Codes
import Defuse.Proofs.VarintRoundTrip
import Defuse.Lib.Division
import Defuse.Proofs.Checksums
import Defuse.Lib.Cells
import Defuse.Lib.Decoders
import Defuse.Spec.SftpBuffer
import Defuse.Spec.SftpStream
import Defuse.Spec.SftpSend
import Defuse.Proofs.SftpAttrs
import Defuse.Proofs.SftpReplies
import Defuse.Proofs.SftpFrames
import Defuse.Spec.SftpRequests
import Defuse.Proofs.SftpService
import Defuse.Lib.Refs
import Defuse.Spec.SftpFile
import Defuse.Proofs.SftpPlainFile
import Defuse.Proofs.SftpReaddir
