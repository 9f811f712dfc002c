import Smx.Base.Bytes
import Smx.Base.Error
import Smx.Base.Number
import Smx.Lib.ParentChain
import Smx.Lib.Run
import Smx.Lib.EmitM
import Smx.Lib.LittleEndian
import Smx.Context.Lookup
import Smx.Context.Names
import Smx.Context.Bindings
import Smx.Context.Chaining
import Smx.Core.Assign
import Smx.Core.Object
import Smx.Core.Loops
import Smx.Core.Quote
import Smx.Lib.MaxHeap
import Smx.Sched.PriQ
import Smx.Sched.Elem
import Smx.Parse.Scan
import Smx.Parse.Host
import Smx.Parse.Direct
import Smx.Parse.Fuel
import Smx.Parse.Bytewise
import Smx.Compile.Format
import Smx.Compile.Compiler
import Smx.Compile.Run
import Smx.Compile.Code
import Smx.Compile.Encode
import Smx.Compile.Transparent
import Smx.Compile.Meaning
import Smx.Compile.Agree
import Smx.Compile.Reread
import Smx.Compile.Braces
import Smx.Cgi.ClientState
import Smx.Cache.StrCache
import Smx.File.Safe
import Smx.Lib.Clients
import Smx.Lib.RefCount
import Smx.Sched.Pool
import Smx.Sched.HeapPool
import Smx.Sched.Destroy
import Smx.Sched.Earliest
import Smx.Sql.Trans
import Smx.Store.Counter
import Smx.Store.HSet
import Smx.Str.Buffer
import Smx.Str.CStr
import Smx.Str.Sharing
import Smx.Sched.Reload
import Smx.Mail.Base64
import Smx.Mail.Data
import Smx.Mail.Parts
import Smx.Mail.SmtpMail
import Smx.Mail.Transparency
import Smx.Sql.Group
import Smx.Table.Totals
import Smx.Math.Expr
import Smx.Net.Sock
import Smx.Cgi.HtmlClean
import Smx.Cgi.MultiParts
import Smx.Regx.Groups
import Smx.Regx.Exact
import Smx.Regx.Caseless
import Smx.Core.For
import Smx.Core.Calls
import Smx.Core.Define
import Smx.Context.ClassScope
import Smx.Context.TryDepth
import Smx.Parse.ArgAry
import Smx.Parse.Magic
import Smx.Parse.Unknown
import Smx.Str.ReplaceI
import Smx.Strings.Wcm
import Smx.Strings.EnumSort
import Smx.Strings.Trim
import Smx.Strings.Pad
import Smx.Strings.Csv
import Smx.Strings.AttrValue
import Smx.Strings.RxSplit
import Smx.Strings.Pack
import Smx.File.WriteCsv
import Smx.Store.Tdb
import Smx.Cache.ObjCache
import Smx.Sql.Quote
import Smx.Sql.Dsn
import Smx.Sql.Skip
import Smx.Sql.Sqlite
import Smx.Cgi.HtmlQuote
import Smx.Cgi.HtmlLen
import Smx.Cgi.ParseAry
import Smx.Math.Itoa
import Smx.Math.Radix
import Smx.Math.Rand
import Smx.Table.Currency
import Smx.Strings.B64
import Smx.Strings.Hex
import Smx.Mail.Unbase64
import Smx.Mail.Mime
import Smx.Cgi.FormEnum
import Smx.Cgi.CDispParams
import Smx.Net.Write
import Smx.File.MkPath
import Smx.File.Uri
import Smx.Strings.Card
import Smx.Table.NumText
import Smx.Table.Rows
import Smx.Context.EnumKept
import Smx.Math.Assign
import Smx.File.Parts
import Smx.Str.NLTrim
import Smx.Str.StrBuf
import Smx.Sched.Flags
import Smx.Str.StrAry
import Smx.Regx.InBuffer
import Smx.Compile.Splitters
import Smx.Lib.Scanf
import Smx.Time.DateParse
import Smx.Time.FmtTime
import Smx.Time.Spellings
import Smx.Lib.Chain
import Smx.Lib.Buckets
import Smx.Hash.Table
import Smx.Hash.Invariant
import Smx.Hash.Resize
import Smx.Hash.Update
import Smx.Hash.Scan
import Smx.Hash.Run
import Smx.Hash.Sizes
import Smx.Hash.CMap
import Smx.Hash.CMapStr
import Smx.Hash.Objects
import Smx.Hash.Contexts
import Smx.Lib.Threads
import Smx.Lock.Crit
import Smx.Lock.CLock
import Smx.Lock.Mutex
