import Zeo.Capi.Block
import Zeo.Gc.Complete
import Zeo.Marshal.Agree
import Zeo.Analyze.Methods
import Zeo.Analyze.Slots
import Zeo.Cache.Runs
import Zeo.Meta.BodyMixins
import Zeo.Meta.Chains
import Zeo.Meta.Singletons
import Zeo.Rename.Alpha
import Zeo.Capi.StRun
import Zeo.Capture.Textual
import Zeo.Concurrency.Gvl
import Zeo.Date.Calendar
import Zeo.Enc.Concat
import Zeo.Enc.RoundTrip
import Zeo.Enc.Slices
import Zeo.Enc.Spans
import Zeo.Lazy.Chain
import Zeo.Marshal.Safe
import Zeo.Value.ArrayStore
import Zeo.Value.HashAsKey
import Zeo.Ractor.Termination
import Zeo.Meta.ClassUndef
import Zeo.Meta.Clone
import Zeo.Numeric.BitReference
import Zeo.Numeric.Step
import Zeo.Numeric.Significant
import Zeo.Numeric.RadixFormat
import Zeo.Pack.Ber
import Zeo.Numeric.Digits
import Zeo.Value.StrOrder
import Zeo.Value.StrSucc
import Zeo.Value.ArithSlice
import Zeo.Concurrency.Interrupts
