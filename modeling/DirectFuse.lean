import DirectFuse.ExecLogic
import DirectFuse.SysioState
import DirectFuse.SysioInode
import DirectFuse.SysioNamei
import DirectFuse.SysioMount
import DirectFuse.SysioFile
import DirectFuse.SysioInterface
import DirectFuse.SysioFcntl
import DirectFuse.SysioSystem
import DirectFuse.PostMoves
import DirectFuse.CallMoves
import DirectFuse.OtherOps
import DirectFuse.SysioReconcile
import DirectFuse.ReconcileStream
import DirectFuse.ReconcileFull
import DirectFuse.ReconcileValid
import DirectFuse.FuseDriver
import DirectFuse.FuseSystem
import DirectFuse.CoreMoves
import DirectFuse.FuseMoves
import DirectFuse.WalkRules
import DirectFuse.PathRefs
import DirectFuse.Tally
import DirectFuse.DescriptorTable
import DirectFuse.InodeRefs
import DirectFuse.InodeAccounts
import DirectFuse.FuseAccounts
import DirectFuse.NameForest
import DirectFuse.PruneForest
import DirectFuse.GrowForest
import DirectFuse.FusePlain
import DirectFuse.WalkForest
import DirectFuse.MountForest
import DirectFuse.CallRules
import DirectFuse.ListedNodes
import DirectFuse.Dispatch
import DirectFuse.IoContexts
import DirectFuse.FileCompletions
import DirectFuse.ReadOnlyMounts
import DirectFuse.ByteRange
import DirectFuse.CruiseIo
import DirectFuse.BasePath
import DirectFuse.BbfsMounts
import DirectFuse.DirStream
import DirectFuse.FuseDirectory
import DirectFuse.FuseRecords
import DirectFuse.DirectoryBuffer
import DirectFuse.DirectoryMap
import DirectFuse.InodeMoves
import DirectFuse.DeviceIdentity
import DirectFuse.WalkFold
import DirectFuse.WalkPairs
import DirectFuse.NoFollow
import DirectFuse.Sparing
import DirectFuse.RankedNames
import DirectFuse.WalkEnds
import DirectFuse.LinkCircles
import DirectFuse.VectorBounds
import DirectFuse.CurrentExtent
import DirectFuse.MountPrefix
import DirectFuse.FailedDirectories
import DirectFuse.Permission
import DirectFuse.TrailingSeparators
import DirectFuse.StartingMount
import DirectFuse.FailedOpens
import DirectFuse.SeekPositions
import DirectFuse.FreeDescriptors
import DirectFuse.Duplication
import DirectFuse.LockTranslation
import DirectFuse.RenameChecks
import DirectFuse.Returning
import DirectFuse.Lineage
import DirectFuse.PruneRuns
import DirectFuse.PruneCount
import DirectFuse.FailedMounts
import DirectFuse.SysioInit
import DirectFuse.Cutting
import DirectFuse.BootTokens
import DirectFuse.BootArgs
import DirectFuse.ArgGrammar
import DirectFuse.BootLoop
import DirectFuse.QuotedValues
import DirectFuse.ComponentHashes
import DirectFuse.Numerals
import DirectFuse.BootCommands
import DirectFuse.DeviceNumbers
import DirectFuse.BootOpens
import DirectFuse.BootOperations
import DirectFuse.OwnKeys
import DirectFuse.IncoreDirectory
import DirectFuse.IncoreRecords
import DirectFuse.IncoreChain
import DirectFuse.IncoreListing
import DirectFuse.IncoreRename
import DirectFuse.ByteAccess
import DirectFuse.DirentConversion
import DirectFuse.CruisePaths
import DirectFuse.StatefulDriver
import DirectFuse.ReconcileVast
import DirectFuse.IncoreFiles
import DirectFuse.IovecSum
import DirectFuse.BackendPath
import DirectFuse.Reclaim
import DirectFuse.NameSpace
import DirectFuse.Codec
import DirectFuse.SftpBuffer
import DirectFuse.SftpAttrs
import DirectFuse.SftpFrames
import DirectFuse.SftpRequests
import DirectFuse.SftpSafety
import DirectFuse.SftpWindow
import DirectFuse.NameTree
import DirectFuse.IncoreVolume
import DirectFuse.KeyedTable
import DirectFuse.SshfsCache
import DirectFuse.SshfsRaces
