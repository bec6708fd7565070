import Ycsb.AckThreads
import Ycsb.BenchmarkSound
import Ycsb.CheckingSound
import Ycsb.DiscreteSound
import Ycsb.EndpointSound
import Ycsb.HandleSound
import Ycsb.KeySpaceSound
import Ycsb.LeveldbScan
import Ycsb.LeveldbSound
import Ycsb.LeveldbFormats
import Ycsb.LmdbSound
import Ycsb.MeasurementsSound
import Ycsb.MergeBindingSound
import Ycsb.PhaseEnd
import Ycsb.PropertiesSound
import Ycsb.RateFileSound
import Ycsb.RateSound
import Ycsb.RpcBounds
import Ycsb.RpcEquiv
import Ycsb.RpcSystem
import Ycsb.SequentialSound
import Ycsb.SqliteEquiv
import Ycsb.SqliteSound
import Ycsb.StatusSound
import Ycsb.TokenSound
import Ycsb.TraceSound
import Ycsb.UpdateMergeSound
import Ycsb.UpdateSound
import Ycsb.WarmupSound
import Ycsb.WiredtigerSound
import Ycsb.WorkloadSound
import Ycsb.WrapperSound
import Ycsb.ZipfianLaw
