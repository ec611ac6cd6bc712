import RedisCpp.Commands.Effects
import RedisCpp.Commands.ExpiryArguments
import RedisCpp.Commands.MultiKey
import RedisCpp.Net.Attention
import RedisCpp.Net.Intake
import RedisCpp.Net.Pipelining
import RedisCpp.Net.Shutdown
import RedisCpp.Net.StaleEvents
import RedisCpp.Net.Unwedged
import RedisCpp.Net.Wakeup
import RedisCpp.Protocol.Cuts
import RedisCpp.Protocol.Extraction
import RedisCpp.Protocol.Quoting
import RedisCpp.Service.Answered
import RedisCpp.Service.Crashes
import RedisCpp.Store.Accounting
import RedisCpp.Store.Durability
import RedisCpp.Store.Linearizable
import RedisCpp.Store.LogAgreement
import RedisCpp.Store.Reaping
import RedisCpp.Store.Recovery
import RedisCpp.Store.ReplaySurvival
import RedisCpp.Store.Restarts
import RedisCpp.ThreadPool
