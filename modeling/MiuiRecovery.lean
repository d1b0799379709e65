import MiuiRecovery.Verifier
import MiuiRecovery.Mtd.RoundTrip
import MiuiRecovery.Install
import MiuiRecovery.Recovery.Main
import MiuiRecovery.Nandroid.Restore
import MiuiRecovery.Nandroid.Tar
import MiuiRecovery.DataMedia
import MiuiRecovery.ApplyPatch.Resume
import MiuiRecovery.ApplyPatch.Bsdiff.RoundTrip
import MiuiRecovery.DualBoot
import MiuiRecovery.Minzip.ItemMap
import MiuiRecovery.Edify.Reference
import MiuiRecovery.Updater.NullArgs
import MiuiRecovery.Dedupe.Gc
import MiuiRecovery.Dedupe.RoundTrip
import MiuiRecovery.Nandroid.Backup
import MiuiRecovery.Nandroid.Naming
import MiuiRecovery.Nandroid.Md5
import MiuiRecovery.Mtd.Bootloader
import MiuiRecovery.Input
import MiuiRecovery.ApplyPatch.Bsdiff.Bounds
import MiuiRecovery.Recovery.Log
import MiuiRecovery.ApplyPatch.ImgPatch
import MiuiRecovery.Lib.Insertion
import MiuiRecovery.Minzip.Archive
import MiuiRecovery.Minzip.Directory
import MiuiRecovery.Minzip.Parse
import MiuiRecovery.Minzip.Extract
import MiuiRecovery.Minzip.Buffer
import MiuiRecovery.Minzip.Visit
import MiuiRecovery.Minzip.Report
import MiuiRecovery.ApplyPatch.Emmc
import MiuiRecovery.ApplyPatch.Partition
import MiuiRecovery.ApplyPatch.FreeCache
import MiuiRecovery.Lib.Patch
import MiuiRecovery.Minelf.Retouch
import MiuiRecovery.Ui.Array
import MiuiRecovery.Ui.MenuNode
import MiuiRecovery.Ui.Graph
import MiuiRecovery.Mtd.Mounts
import MiuiRecovery.Lib.Chunks
import MiuiRecovery.Mtd.Chunks
import MiuiRecovery.Lib.Transfer
import MiuiRecovery.Mtd.RawPartition
import MiuiRecovery.Mtd.Backup
import MiuiRecovery.Flash.RawCopy
import MiuiRecovery.Flash.Dispatch
import MiuiRecovery.Dedupe.Interrupted
import MiuiRecovery.ApplyPatch.Bsdiff.Longest
import MiuiRecovery.Lib.InPlace
import MiuiRecovery.Updater.FileGetProp
import MiuiRecovery.Ui.Languages
import MiuiRecovery.Ui.LangLines
import MiuiRecovery.Lib.Scan
import MiuiRecovery.Mtd.Partitions
import MiuiRecovery.Keys
import MiuiRecovery.Mmc
import MiuiRecovery.Lib.FileTree
import MiuiRecovery.Minzip.Hierarchy
import MiuiRecovery.Minzip.Permissions
import MiuiRecovery.Updater.SetPerm
import MiuiRecovery.Updater.Pipe
import MiuiRecovery.Lib.Window
import MiuiRecovery.Ui.Blur
import MiuiRecovery.Lib.Ledger
import MiuiRecovery.Mtd.BadBlocks
import MiuiRecovery.ApplyPatch.Imgdiff.ZipRoundTrip
import MiuiRecovery.Lib.Scatter
import MiuiRecovery.Mtd.BlockMapping
import MiuiRecovery.Mtd.BmlFlash
import MiuiRecovery.Adb.Stream
import MiuiRecovery.Adb.Transport
import MiuiRecovery.Adb.Sideload
import MiuiRecovery.Adb.Wire
import MiuiRecovery.Edify.Lexer
import MiuiRecovery.Edify.Grammar
