import Babelfish.Lib.Bytes
import Babelfish.Lib.Forest
import Babelfish.Lib.Flat
import Babelfish.Lib.Distinct
import Babelfish.Lib.View
import Babelfish.Lib.Runs
import Babelfish.Libfdt.Blob
import Babelfish.Libfdt.ReadOnly
import Babelfish.Libfdt.ReadWrite
import Babelfish.Libfdt.Token
import Babelfish.Libfdt.Tree
import Babelfish.Libfdt.Flatten
import Babelfish.Libfdt.Resolve
import Babelfish.Libfdt.Read
import Babelfish.Libfdt.Path
import Babelfish.Libfdt.Write
import Babelfish.Libfdt.Stock
import Babelfish.Libfdt.Edit
import Babelfish.Calls
import Babelfish.FdtTools
import Babelfish.Phandle
import Babelfish.Pinctrl
import Babelfish.Steps
import Babelfish.Grouping
import Babelfish.Partition
import Babelfish.Groups
import Babelfish.Libfdt.Outcome
import Babelfish.Reported
import Babelfish.Ledger
import Babelfish.Offsets
import Babelfish.Simulation
import Babelfish.Stale
import Babelfish.CString
import Babelfish.Script
import Babelfish.Fixup
import Babelfish.Chosen
import Babelfish.Bootargs
import Babelfish.Atags
import Babelfish.Lookups
import Babelfish.Handles
import Babelfish.Freshness
import Babelfish.References
import Babelfish.Libfdt.Exact
import Babelfish.HandleFails
import Babelfish.Lib.Ring
import Babelfish.Libfex.Memory
import Babelfish.Libfex.Rings
import Babelfish.Libfex.Deletion
import Babelfish.Libfex.Runs
import Babelfish.Libfex.Find
import Babelfish.Heap
import Babelfish.Arrays
import Babelfish.Libfex.ScriptBin
import Babelfish.Libfex.Decoding
import Babelfish.Libfex.Images
import Babelfish.TagOrder
import Babelfish.TagBounds
import Babelfish.Unguarded
import Babelfish.UartRounds
import Babelfish.UartLoop
import Babelfish.Uarts
import Babelfish.PinAttrs
import Babelfish.Lib.Memory
import Babelfish.Lib.CExpr
import Babelfish.Lib.Decimal
import Babelfish.Strings.Move
import Babelfish.Strings.Search
import Babelfish.Strings.StringList
import Babelfish.Strings.Concat
import Babelfish.Strings.Splice
import Babelfish.Libfex.Counts
import Babelfish.Libfex.Asserts
import Babelfish.Libfex.Packed
import Babelfish.Libfex.Size
import Babelfish.Makes
import Babelfish.Spelling
import Babelfish.Console
import Babelfish.Soc
import Babelfish.Main
import Babelfish.Lib.Loop
import Babelfish.Lib.Preorder
import Babelfish.Libfdt.Walk
import Babelfish.Libfdt.Ancestors
import Babelfish.Libfdt.GetPath
import Babelfish.Libfdt.Searches
import Babelfish.Lib.Erase
import Babelfish.Libfdt.Delete
import Babelfish.Libfdt.Edits
import Babelfish.PhandleSearch
import Babelfish.Lib.Region
import Babelfish.Libfdt.Header
import Babelfish.Libfdt.OpenInto
import Babelfish.Libfdt.Opening
import Babelfish.Boot
import Babelfish.Plans
import Babelfish.Updates
import Babelfish.Libfdt.Reserve
