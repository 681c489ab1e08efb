import NextBoot.Bytes
import NextBoot.Words
import NextBoot.BlockStore
import NextBoot.Results
import NextBoot.CrashLogic
import NextBoot.Virtio.Mapping
import NextBoot.Virtio.Translation
import NextBoot.Virtio.BlockIo
import NextBoot.Virtio.ReadSemantics
import NextBoot.Virtio.DeviceReads
import NextBoot.MediaGrow.Device
import NextBoot.MediaGrow.Gpt
import NextBoot.MediaGrow.Exfat
import NextBoot.MediaGrow.Bitmap
import NextBoot.MediaGrow.Grow
import NextBoot.MediaGrow.Writes
import NextBoot.MediaGrow.Table
import NextBoot.MediaGrow.Crash
import NextBoot.MediaGrow.Rejection
import NextBoot.MediaGrow.Volume
import NextBoot.MediaGrow.Replan
import NextBoot.MediaGrow.Grown
import NextBoot.MediaGrow.Resume
import NextBoot.MediaGrow.FreeClusters
import NextBoot.MediaUpdate.Files
import NextBoot.MediaUpdate.Transaction
import NextBoot.MediaUpdate.Plans
import NextBoot.MediaUpdate.Restore
import NextBoot.MediaUpdate.Publish
import NextBoot.MediaUpdate.Recovery
import NextBoot.MediaUpdate.Runs
import NextBoot.MediaUpdate.LoaderOrder
import NextBoot.Vhdx.Format
import NextBoot.Vhdx.Backing
import NextBoot.Vhdx.Chain
import NextBoot.Vhdx.Device
import NextBoot.Tiling
import NextBoot.Fs.Device
import NextBoot.Fs.Extents
import NextBoot.Fs.ClusterChain
import NextBoot.Fs.Fat32
import NextBoot.Fs.ExFat
import NextBoot.Fs.FatFiles
import NextBoot.Fs.Ntfs.Runs
import NextBoot.Fs.Ntfs.Extents
import NextBoot.Fs.Ntfs.Reading
import NextBoot.Fs.SparseRead
import NextBoot.Fs.Ext4
import NextBoot.Fs.Xfs
import NextBoot.Fs.SparseFiles
import NextBoot.Fs.Udf.Storage
import NextBoot.Fs.Udf.RangedRead
import NextBoot.Fs.Udf.Files
import NextBoot.Fs.Udf.Mount
import NextBoot.Fs.Udf.EntryPatch
import NextBoot.Fs.Udf.PatchedVolume
import NextBoot.Fs.Udf.FileReplacement
import NextBoot.Virtio.Manager
import NextBoot.Faults
import NextBoot.Strings
import NextBoot.Fs.Detect
import NextBoot.Fs.Directory
import NextBoot.Fs.Fat32Directory
import NextBoot.Fs.ExFatDirectory
import NextBoot.Fs.Iso9660
import NextBoot.Fs.Loading
import NextBoot.Fs.Paths
import NextBoot.Fs.Scan
import NextBoot.Fs.IsoScan
import NextBoot.Linux.Parser
import NextBoot.Linux.LabelOrder
import NextBoot.Wim.Format
import NextBoot.Wim.Resource
import NextBoot.Wim.Xpress
import NextBoot.Wim.Ranges
import NextBoot.Wim.Path
import NextBoot.Wim.Metadata
import NextBoot.VentoyLinux.Initrd
import NextBoot.Fs.DirectoryWalks
import NextBoot.Fs.ClusterSplit
import NextBoot.Fs.ContiguousDirectories
import NextBoot.Fs.ExtentTree
import NextBoot.Fs.XfsAddressing
import NextBoot.Fs.LongNames
import NextBoot.Vhdx.SectorRuns
import NextBoot.Vhdx.FileRanges
import NextBoot.Vdi.Format
import NextBoot.Vdi.Planner
import NextBoot.Vhd.Dynamic
import NextBoot.Vdi.Chain
import NextBoot.Vdi.Device
import NextBoot.VirtualFs.FileProtocol
import NextBoot.VirtualFs.PathSegments
import NextBoot.VirtualFs.Handles
import NextBoot.VirtualFs.ListedSizes
import NextBoot.Fs.Ntfs.RunEncoding
import NextBoot.Fs.Ntfs.UpdateSequence
import NextBoot.Dedup
import NextBoot.Fs.Ntfs.Index
import NextBoot.Fs.Ntfs.Listing
import NextBoot.Fs.ElTorito
import NextBoot.Lzx.Jumps
import NextBoot.CanonicalCode
import NextBoot.Lzx.Huffman
import NextBoot.Wim.XpressTables
import NextBoot.Fs.LargeFiles
import NextBoot.Fs.RecordLocation
import NextBoot.Appending
import NextBoot.Lzx.Decoder
import NextBoot.Lzx.Safety
import NextBoot.Wim.XpressChecked
import NextBoot.Wim.XpressSafety
import NextBoot.Lifetimes
import NextBoot.Boot.Interfaces
import NextBoot.Boot.Attempt
import NextBoot.MediaGrow.GrowthPlan
import NextBoot.Loops
import NextBoot.MediaGrow.BitmapUpdate
import NextBoot.Requests
import NextBoot.Wim.ResourceRequests
import NextBoot.Linux.Grub
import NextBoot.Linux.MenuEntries
import NextBoot.Scanner.LogicalPartitions
import NextBoot.Pieces
import NextBoot.VentoyLinux.ImageMaps
import NextBoot.Globs
import NextBoot.Config.PathPatterns
import NextBoot.Config.JsonStrings
import NextBoot.Config.Model
import NextBoot.Config.Parser
import NextBoot.Config.Documents
import NextBoot.Config.Meaning
import NextBoot.Config.Precedence
import NextBoot.Config.Lookups
import NextBoot.ShiftRegisters
import NextBoot.Boot.Vlnk
import NextBoot.LexicalPaths
import NextBoot.Vhdx.ParentPaths
import NextBoot.FileTrees
import NextBoot.MediaUpdate.Mounted
import NextBoot.MediaUpdate.Refusals
import NextBoot.Rewriting
import NextBoot.Boot.Bcd
import NextBoot.Vhdx.BatLayout
import NextBoot.Coalescing
import NextBoot.Virtio.BlockMapping
import NextBoot.Virtio.Optimizing
import NextBoot.Virtio.RangeTranslation
import NextBoot.Scanner.Deduplication
import NextBoot.Boot.DevicePaths
import NextBoot.Boot.LoadFilePaths
import NextBoot.Boot.WimbootReads
import NextBoot.BitStrings
import NextBoot.Wim.XpressEncoder
import NextBoot.Wim.XpressRoundTrip
import NextBoot.Fs.RecordPatch
import NextBoot.Fs.RepointedVolume
import NextBoot.Fs.IsoFiles
import NextBoot.Boot.ConfReplace
import NextBoot.Boot.ReplacedFiles
import NextBoot.Boot.UdfReplacedFiles
