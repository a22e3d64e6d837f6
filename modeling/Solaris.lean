import Solaris.Storage.Chunk
import Solaris.Storage.Catalog
import Solaris.Storage.Query
import Solaris.Storage.QueryCorrect
import Solaris.Storage.Count
import Solaris.Storage.Append
import Solaris.Storage.AppendCorrect
import Solaris.Storage.AppendLoop
import Solaris.Storage.Interleaving
import Solaris.Storage.LocalLog
import Solaris.Api.Service
import Solaris.Ql.Interval
import Solaris.Ql.Builder
import Solaris.Ql.Semantics
import Solaris.Ql.Soundness
import Solaris.Ql.Exactness
import Solaris.Ql.Union
import Solaris.Cache.CachedStorage
import Solaris.Cache.CachedLog
