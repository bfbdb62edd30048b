import LlvmLd.Lib.Transition
import LlvmLd.Lib.Bytes
import LlvmLd.Lib.Memory
import LlvmLd.Lib.CountingSort
import LlvmLd.Lib.Utf8
import LlvmLd.Lib.Crc
import LlvmLd.Lib.Placement
import LlvmLd.Lib.ProbeTable
import LlvmLd.Lib.Masking
import LlvmLd.Lib.Runs
import LlvmLd.Lib.Refinement
import LlvmLd.Lib.Groups
import LlvmLd.Support.Crc
import LlvmLd.Abi.Invoke
import LlvmLd.Abi.SingleEntry
import LlvmLd.Abi.Utf8
import LlvmLd.Abi.Validation
import LlvmLd.Codeview.Record
import LlvmLd.Input.Flags
import LlvmLd.Input.FlagsReaders
import LlvmLd.Writer.Chunk
import LlvmLd.Writer.Layout
import LlvmLd.Writer.LayoutInvariant
import LlvmLd.Writer.Thunks
import LlvmLd.Writer.FinalBaserels
import LlvmLd.Writer.GapFill
import LlvmLd.Writer.DynamicRelocs
import LlvmLd.Lib.OnesComplement
import LlvmLd.Writer.PeChecksum
import LlvmLd.Writer.Relocation
import LlvmLd.Writer.WriteSections
import LlvmLd.Writer.BaserelBlocks
import LlvmLd.Idata.Import
import LlvmLd.Idata.Tables
import LlvmLd.Idata.Loader
import LlvmLd.Idata.Merge
import LlvmLd.Idata.Create
import LlvmLd.Idata.Dlls
import LlvmLd.DebugTypes.GHashTable
import LlvmLd.DebugTypes.GHashInsert
import LlvmLd.DebugTypes.GHashMerge
import LlvmLd.Icf.Section
import LlvmLd.Icf.Run
import LlvmLd.Icf.Passes
import LlvmLd.Icf.FoldedAlike
import LlvmLd.Tools.Python
import LlvmLd.Tools.CiBuild
import LlvmLd.Tools.ReplayFreshness
import LlvmLd.Tools.Payload
import LlvmLd.Tools.PayloadVerified
import LlvmLd.Tools.ExternalCompare
import LlvmLd.Tools.CompareHides
import LlvmLd.Gsi.Records
import LlvmLd.Gsi.HashTable
import LlvmLd.Gsi.Buckets
import LlvmLd.Gsi.RoundTrip
import LlvmLd.Gsi.BucketOrder
import LlvmLd.Gsi.StreamSizes
import LlvmLd.Gsi.AddrMap
import LlvmLd.Writer.CrtOrder
import LlvmLd.Writer.BranchTargets
import LlvmLd.Writer.Addresses
import LlvmLd.Writer.Subsections
import LlvmLd.Lib.Brackets
import LlvmLd.Pdb.SymbolRecords
import LlvmLd.Pdb.GlobalRecords
import LlvmLd.Pdb.Scopes
import LlvmLd.Pdb.SectionContribs
import LlvmLd.Lib.Chains
import LlvmLd.Writer.MergeDestinations
import LlvmLd.Writer.ThunkTargets
import LlvmLd.Codeview.StringTable
import LlvmLd.Pdb.FileChecksums
import LlvmLd.Symbols.Comdat
import LlvmLd.Edata.Exports
import LlvmLd.Edata.Tables
import LlvmLd.Liveness.MarkLive
import LlvmLd.Tools.CacheKeys
import LlvmLd.Writer.RvaTables
import LlvmLd.Input.LazyScan
import LlvmLd.Input.ObjFile
import LlvmLd.Input.StrayNumbers
import LlvmLd.Pdb.ModuleSymbols
import LlvmLd.Pdb.SymbolOffsets
import LlvmLd.Lib.Interleaving
import LlvmLd.Pdb.Finish
import LlvmLd.Pdb.Analysis
import LlvmLd.Pdb.ParallelSymbols
import LlvmLd.Pdb.StringReferences
import LlvmLd.Pdb.ModuleStream
import LlvmLd.Pdb.ReservedModules
import LlvmLd.Pdb.CommittedModules
import LlvmLd.Lib.Paging
import LlvmLd.Lib.Bitmap
import LlvmLd.Msf.Common
import LlvmLd.Msf.Builder
import LlvmLd.Msf.Ownership
import LlvmLd.Msf.Streams
import LlvmLd.Msf.FreePageMap
import LlvmLd.Msf.MappedStream
import LlvmLd.Msf.File
import LlvmLd.Msf.Committed
import LlvmLd.Msf.Reload
import LlvmLd.Symtab.Resolution
import LlvmLd.Symtab.Termination
