import Queuefy.App.Folded
import Queuefy.App.Remembered
import Queuefy.App.Slots
import Queuefy.App.StoreOnce
import Queuefy.App.Whole
import Queuefy.Cron.Grammar
import Queuefy.Cron.Horizon
import Queuefy.Fleet.Custody
import Queuefy.Fleet.Lease
import Queuefy.Fleet.Overtaking
import Queuefy.Fleet.Spent
import Queuefy.Store.Broken
import Queuefy.Store.Concurrent
import Queuefy.Store.Depth
import Queuefy.Store.Draining
import Queuefy.Store.Evicted
import Queuefy.Store.InStep
import Queuefy.Store.Torn
import Queuefy.Worker.Beating
import Queuefy.Worker.Pruning
import Queuefy.Worker.Spoken
import Queuefy.Worker.Stopping
import Queuefy.Worker.Threads
import Queuefy.Worker.Usable
