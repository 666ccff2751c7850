import Nightingale.Process.Spell
import Nightingale.Process.Removal
import Nightingale.Process.Restart
import Nightingale.Process.Survival
import Nightingale.Process.Observed
import Nightingale.Dispatch.Consumer
import Nightingale.Denoise.Selection
import Nightingale.Denoise.Detector
import Nightingale.Denoise.Cache
import Nightingale.Denoise.Lifecycle
import Nightingale.Denoise.Storms
import Nightingale.Denoise.Race
import Nightingale.Denoise.Recovery
import Nightingale.Denoise.Silence
import Nightingale.Mute.Firings
import Nightingale.Process.Orders
import Nightingale.Custom.Columns
import Nightingale.Pipeline.Legacy
import Nightingale.Dispatch.Subscribe
import Nightingale.Dskit.Guard
import Nightingale.Eval.Scheduler
import Nightingale.Eval.Filling
import Nightingale.Eval.Triggers
import Nightingale.Eval.NoData
import Nightingale.Pushgw.Labels
import Nightingale.Naming.Rings
import Nightingale.Pushgw.Writer
import Nightingale.Memsto.Tasks
import Nightingale.Dispatch.Pairs
import Nightingale.Sender.Queue
import Nightingale.Pipeline.Escapes
import Nightingale.Pushgw.Post
import Nightingale.Mute.Saved
import Nightingale.Models.Datasources
import Nightingale.Dispatch.Forward
import Nightingale.Eslike.Flatten
import Nightingale.Pushgw.Heartbeats
