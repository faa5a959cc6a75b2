import Voila.Cg.RunSound
import Voila.Low.FinallySound
import Voila.Chk.ExhaustSound
import Voila.Chk.AcyclicSound
import Voila.Rt.Hash
import Voila.Rt.ReleaseSound
import Voila.Rt.Group
import Voila.Rt.Unwind
import Voila.Rt.JudgeRuns
import Voila.Par.ExprSound
import Voila.Rt.JsonSound
import Voila.Rt.ReaderSound
import Voila.Load.LoaderSound
import Voila.Load.ModSound
import Voila.Rx.NativesSound
import Voila.Compress.TarSound
import Voila.Rt.TeeSound
import Voila.Compress.PlaceSound
import Voila.Http.ReadingSound
import Voila.Rt.DecMod
import Voila.Rt.DecWhole
import Voila.Heap.Heap
import Voila.Sync.WaitGroup
import Voila.Sync.Once
import Voila.Rt.FanSound
import Voila.Rt.Range
import Voila.Str.CaseSound
import Voila.Str.RunesSound
import Voila.Str.ClampSound
import Voila.Str.Parse
import Voila.Rt.FmtSound
import Voila.Rt.Sort
import Voila.Rx.Star
import Voila.Typ.Interned
import Voila.Load.Version
import Voila.Load.ModClosed
import Voila.Path.Glob
import Voila.Time.Calendar
import Voila.Load.ModHash
import Voila.Csv.Format
import Voila.Rt.Crypto
import Voila.Http.Query
import Voila.Flag.Set
import Voila.Http.Address
