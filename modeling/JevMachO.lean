import JevMachO.APFS.Context
import JevMachO.APFS.Dir
import JevMachO.APFS.Path
import JevMachO.ARM64Disasm
import JevMachO.CallFinder
import JevMachO.Common
import JevMachO.DelimitedCStr
import JevMachO.DeviceTree.BootPatches
import JevMachO.DeviceTree.Damage
import JevMachO.DeviceTree.Dump
import JevMachO.DeviceTree.PatchLaws
import JevMachO.DeviceTree.PatchVerdict
import JevMachO.DeviceTree.TableEdits
import JevMachO.Hex
import JevMachO.HexString
import JevMachO.Lib.Bidirectional
import JevMachO.Lib.Bytes
import JevMachO.Lib.Caches
import JevMachO.Lib.Cursor
import JevMachO.Lib.Filling
import JevMachO.Lib.Hull
import JevMachO.Lib.Numeral
import JevMachO.Lib.Paging
import JevMachO.Lib.RegisterMoves
import JevMachO.Lib.Ring
import JevMachO.Lib.Rose
import JevMachO.Lib.Rounding
import JevMachO.Lib.Runs
import JevMachO.Lib.Schedule
import JevMachO.Lib.Transition
import JevMachO.Lib.Varint
import JevMachO.Lib.Views
import JevMachO.Lib.Words
import JevMachO.LibunwindSupport
import JevMachO.M1N1
import JevMachO.MachO.CommandFrame
import JevMachO.MachO.CommandWalk
import JevMachO.MachO.Dump
import JevMachO.MachO.FunctionLookup
import JevMachO.MachO.LEB128
import JevMachO.MachO.MinimalPayload
import JevMachO.MachO.NameMaps
import JevMachO.MachO.OffsetSearch
import JevMachO.MachO.RangeHull
import JevMachO.MachO.Ranges
import JevMachO.MachO.SubCommands
import JevMachO.MachO.SymbolTable
import JevMachO.MuslSyscalls
import JevMachO.NVRAM.BootArgs
import JevMachO.NVRAM.Bounds
import JevMachO.NVRAM.EscapedForm
import JevMachO.NVRAM.Image
import JevMachO.NVRAM.PackedCStr
import JevMachO.NVRAM.Shortest
import JevMachO.NVRAM.Variables
import JevMachO.RingBuffer.Buffers
import JevMachO.RingBuffer.Bulk
import JevMachO.RingBuffer.BulkProd
import JevMachO.RingBuffer.Losses
import JevMachO.RingBuffer.Mapping
import JevMachO.RingBuffer.MultiCons
import JevMachO.RingBuffer.MultiProd
import JevMachO.RingBuffer.Progress
import JevMachO.RingBuffer.Sequential
import JevMachO.RingBuffer.SingleProd
import JevMachO.RingBuffer.Sizes
import JevMachO.RingBuffer.Triangular
import JevMachO.SearchFS
import JevMachO.Version
import JevMachO.XNUBoot.Bail
import JevMachO.XNUBoot.CopyLoop
import JevMachO.XNUBoot.Fetch
import JevMachO.XNUBoot.Handover
import JevMachO.XNUBoot.Landing
import JevMachO.XNUBoot.Renaming
