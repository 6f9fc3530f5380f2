import RkUboot.Lib.Mem
import RkUboot.Lib.BlockDev
import RkUboot.Lib.Run
import RkUboot.Vendor.Basic
import RkUboot.Vendor.Map
import RkUboot.Vendor.Crash
import RkUboot.Lib.Nibbles
import RkUboot.Rkss.Basic
import RkUboot.Rkss.Disk
import RkUboot.Rkss.Requests
import RkUboot.Rkss.Format
import RkUboot.Rkss.Runs
import RkUboot.Rkss.Metadata
import RkUboot.Rkss.RefCount
import RkUboot.Rkss.Isolation
import RkUboot.Rkss.Names
import RkUboot.OpteeMem.Basic
import RkUboot.OpteeMem.Live
import RkUboot.Fastboot.Basic
import RkUboot.Fastboot.Image
import RkUboot.Fastboot.Commands
import RkUboot.Fastboot.VerifiedFlash
import RkUboot.Fastboot.Lock
import RkUboot.Fastboot.Stream
import RkUboot.Fastboot.StreamBounds
import RkUboot.Fastboot.Download
import RkUboot.Fastboot.SparseLayout
import RkUboot.Fastboot.SparseStream
import RkUboot.SecureBoot.Uboot
import RkUboot.SecureBoot.BootImage
import RkUboot.Rockusb.Basic
import RkUboot.Rockusb.Lock
import RkUboot.Rockusb.PreRead
import RkUboot.Rockusb.Coherence
import RkUboot.Fastboot.Aboot
import RkUboot.Param.Store
import RkUboot.Platform.Crc32Rk
import RkUboot.Param.Mtdparts
import RkUboot.IdBlock.Update
import RkUboot.Lib.Bytes
import RkUboot.Lib.Cipher
import RkUboot.Platform.Rc4
import RkUboot.Tools.BootMerger
import RkUboot.Tools.BootLayout
import RkUboot.IdBlock.Loader
import RkUboot.Tools.LoaderImage
import RkUboot.Attestation.Key
import RkUboot.Tools.TrustMerger
import RkUboot.Tools.TrustLayout
import RkUboot.Resource.Basic
import RkUboot.Resource.RoundTrip
import RkUboot.Lib.OpenAddress
import RkUboot.Env.HashTable
import RkUboot.Env.ImportExport
import RkUboot.Env.Mmc
import RkUboot.Lib.Ranges
import RkUboot.Lmb.Reserved
import RkUboot.Gpt.Basic
import RkUboot.Gpt.RoundTrip
import RkUboot.Lib.DoublyLinked
import RkUboot.Net.Defrag
import RkUboot.Net.HoleList
import RkUboot.Net.Fill
import RkUboot.Net.Safety
import RkUboot.Net.Progress
import RkUboot.Net.Reassembly
import RkUboot.Net.Tftp
import RkUboot.Net.TftpGet
import RkUboot.Lib.Path
import RkUboot.Net.TftpPut
import RkUboot.Rkss.RoundTrip
import RkUboot.Rkss.FailedWrite
import RkUboot.Rkss.Lookup
import RkUboot.Fastboot.Pending
import RkUboot.OpteeMem.Search
import RkUboot.Rkss.Directory
import RkUboot.Fastboot.LegacyDownload
import RkUboot.MediaBoot.Pba
import RkUboot.Nvme.Basic
import RkUboot.Rockusb.ReadLoop
import RkUboot.Fastboot.SparseRange
import RkUboot.Nvme.Exact
import RkUboot.IdBlock.Retry
import RkUboot.IdBlock.Search
import RkUboot.Param.Fallback
import RkUboot.Attestation.Chain
import RkUboot.Resource.RamLookup
import RkUboot.Resource.Selection
import RkUboot.SecureBoot.HashInput
import RkUboot.Param.ParseParam
import RkUboot.Tools.EntryName
import RkUboot.Param.Recovery
import RkUboot.Lib.Crc
import RkUboot.Tools.Crc32
import RkUboot.Env.ExportFit
import RkUboot.Env.Iterate
import RkUboot.Lib.Align
import RkUboot.Lmb.Alloc
import RkUboot.Lmb.AllocRuns
import RkUboot.Gpt.ByName
import RkUboot.Nvme.Prp
import RkUboot.OpteeMem.Contents
import RkUboot.Attestation.Provision
