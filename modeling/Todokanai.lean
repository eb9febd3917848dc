import Todokanai.Basic.Machine
import Todokanai.Ssdb.FreeSpace
import Todokanai.Ssdb.FreeRuns
import Todokanai.Ssdb.FreeSets
import Todokanai.Ssdb.Layout
import Todokanai.Ssdb.Umap
import Todokanai.Ssdb.Reload
import Todokanai.Ssdb.Records
import Todokanai.Ssdb.Recovery
import Todokanai.Ssdb.Hash
import Todokanai.Ssdb.Passes
import Todokanai.Ssdb.Scan
import Todokanai.Ssdb.Selection
import Todokanai.Ssdb.Terminators
import Todokanai.Ssdb.Damage
import Todokanai.Sstl.Reader
import Todokanai.Sstl.Traverse
import Todokanai.Sstl.RoundTrip
import Todokanai.Sstl.Skip
import Todokanai.Sstl.Evolution
import Todokanai.Sfs.View
import Todokanai.Sfs.Stream
import Todokanai.Keys.Base57
import Todokanai.Lfs.AtomicList
import Todokanai.Keys.Password
import Todokanai.Ssdb.Durability
