import RedisC.HashtableRefinement
import RedisC.HashtablePace
import RedisC.HashtableArrays
import RedisC.ParseReq
import RedisC.Str2Int
import RedisC.AvlContract
import RedisC.ZsetRuns
import RedisC.ZsetSlice
import RedisC.TtlRuns
import RedisC.KeyTypes
import RedisC.ConnectionRuns
import RedisC.ReplyRuns
import RedisC.StoredSizes
import RedisC.ClientGrammar
import RedisC.SendReq
import RedisC.PollTimeout
import RedisC.ThreadPool
import RedisC.MainLoop
import RedisC.Process
import RedisC.Serial
import RedisC.ClientRuns
import RedisC.ExpiryBacklog
import RedisC.TestAvl
import RedisC.Ranking
