import Millionws.Starvation
import Millionws.SendLoop
import Millionws.Loadgen
import Millionws.Batches
import Millionws.RegistryRefinement
import Millionws.DialCap
import Millionws.DialMetrics
import Millionws.DialRounds
import Millionws.PortGrammar
import Millionws.EchoExchange
import Millionws.MemoryLimit
import Millionws.NetworkAcl
import Millionws.Scraping
import Millionws.Record
import Millionws.Summary
import Millionws.Watchdog
import Millionws.Fleet
import Millionws.Overload
import Millionws.Compare
import Millionws.Sampler
import Millionws.Deployment
import Millionws.Startup
import Millionws.LocalBench
import Millionws.CgroupFiles
import Millionws.SourcePorts
import Millionws.DialErrors
