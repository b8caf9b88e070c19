import Efl.Ecore.CommandScan
import Efl.Ecore.Future.Runs
import Efl.Ecore.Timer.Runs
import Efl.EcoreIpc.Safety
import Efl.EcoreIpc.Session
import Efl.Edje.Programs
import Efl.Eet.Alias
import Efl.Eet.RoundTrip
import Efl.Eet.Threads
import Efl.Efreet.Ini.RoundTrip
import Efl.Eina.Convert
import Efl.Eina.EinaList.Sort
import Efl.Eina.FileMap.Runs
import Efl.Eina.Freeq.Reentrant
import Efl.Eina.Hash
import Efl.Eina.Inarray
import Efl.Eina.Inlist.Runs
import Efl.Eina.MappedLines
import Efl.Eina.Matrixsparse.Iterators
import Efl.Eina.Mempool.Runs
import Efl.Eina.OneBig.Runs
import Efl.Eina.Promise.Order
import Efl.Eina.Promise.Resolve
import Efl.Eina.Quadtree.Order
import Efl.Eina.Rbtree.Overrun
import Efl.Eina.Rbtree.PathIndex
import Efl.Eina.Safepointer.Runs
import Efl.Eina.ShareCommon.Runs
import Efl.Eina.SimpleXml.Attributes
import Efl.Eina.SimpleXml.RoundTrip
import Efl.Eina.Strbuf.Runs
import Efl.Eina.Strbuf.Termination
import Efl.Eina.ThreadDelivery
import Efl.Eina.TileGrid
import Efl.Eina.Tiler.Disjoint
import Efl.Eina.Tiler.Intersection
import Efl.Eina.Tiler.Termination
import Efl.Eina.Tiler.Union
import Efl.Eina.UnicodeWalk
import Efl.Elementary.Code.Newlines
import Efl.Elementary.Code.Runs
import Efl.Elementary.ListView.Runs
import Efl.Emile.Base64
import Efl.Eo.IdBounds
import Efl.Eo.Mro
import Efl.Eo.VtableRuns
import Efl.Evas.FontCompress.RoundTrip
import Efl.Evas.Tga.Safety
import Efl.Io.Buffer.Runs
import Efl.Io.Copier.Drain
import Efl.Io.Queue.Runs
