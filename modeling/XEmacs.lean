import XEmacs.Elhash.FiniteMap
import XEmacs.Elhash.Growth
import XEmacs.Elhash.MapHash
import XEmacs.Elhash.TableEqual
import XEmacs.Chartab.Covering
import XEmacs.Chartab.MirrorCodes
import XEmacs.Chartab.SyntaxTables
import XEmacs.SyntaxScan.ForwardComment
import XEmacs.SyntaxScan.ListMatching
import XEmacs.SyntaxScan.CommentEnds
import XEmacs.Rangetab.Mapping
import XEmacs.Rangetab.Unified
import XEmacs.Buffer.CharCounts
import XEmacs.Buffer.KnownRegion
import XEmacs.Buffer.Accessible
import XEmacs.Buffer.ReplaceChar
import XEmacs.Buffer.UndoHistory
import XEmacs.Buffer.ObsoleteSave
import XEmacs.Buffer.TruncateUndo
import XEmacs.Buffer.LineDrift
import XEmacs.Buffer.MarkersTrack
import XEmacs.Extents.LinksAgree
import XEmacs.Extents.GapArray
import XEmacs.Extents.FindRun
import XEmacs.Extents.MapRule
import XEmacs.Extents.MapScan
import XEmacs.Extents.ZeroLength
import XEmacs.Gc.WeakLists
import XEmacs.Gc.WeakTables
import XEmacs.Bytecode.Preserved
import XEmacs.Coding.UnicodeSafe
import XEmacs.Coding.Ucs4Chunks
import XEmacs.Coding.OutputConv
import XEmacs.Coding.ValidChars
import XEmacs.Coding.NoConversion
import XEmacs.Coding.Big5
import XEmacs.Keymap.InverseExact
import XEmacs.Keymap.KeyOrder
import XEmacs.Keymap.MapKeymapVisits
import XEmacs.Keymap.Preorder
import XEmacs.Keymap.WhereIs
import XEmacs.Variables.Specbind
import XEmacs.Symbols.Obarray
import XEmacs.Sxhash.Respects
import XEmacs.Lists.DeleteEnds
import XEmacs.Lists.Sort
import XEmacs.Lists.Nreverse
import XEmacs.Lread.PrintInteger
import XEmacs.Base64.Regions
import XEmacs.Lstreams.Reads
import XEmacs.Lstreams.Writes
import XEmacs.Plists.Compare
import XEmacs.Search.CaseTables
import XEmacs.Search.MatchData
import XEmacs.Search.ScanBuffer
import XEmacs.Search.BoyerMooreFinds
import XEmacs.Search.SimpleSearch
import XEmacs.Search.ReplaceAgrees
import XEmacs.Windows.Resize
import XEmacs.Specifier.Order
import XEmacs.Specifier.Copy
import XEmacs.Ccl.Strings
import XEmacs.Ccl.Multibyte
import XEmacs.Ccl.Arithmetic
