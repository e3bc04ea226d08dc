import Repaint.Binary.Bits
import Repaint.History.Damage
import Repaint.History.Occlusion
import Repaint.History.Push
import Repaint.History.Track
import Repaint.Trace.Sink
import Repaint.Trace.Tally
import Repaint.Trace.Timeline
import Repaint.Proofs.Outcome
import Repaint.Proofs.Region.Program
import Repaint.Proofs.RankIndex
import Repaint.Proofs.RankIndex.Run
import Repaint.Proofs.Frame
import Repaint.Proofs.History.Push
import Repaint.Proofs.History.Occlusion
import Repaint.Proofs.History.Run
import Repaint.Proofs.History.Links
import Repaint.Proofs.History.Culling
import Repaint.Proofs.History.Damage
import Repaint.Proofs.History.Stale
import Repaint.Proofs.Region.Tiling
import Repaint.Proofs.History.Annals
import Repaint.Proofs.History.Accumulate
import Repaint.Proofs.History.Blur
import Repaint.Proofs.History.Picture
import Repaint.Proofs.Region.Whole
import Repaint.Proofs.Trace.Read
import Repaint.Proofs.Trace.Recording
import Repaint.Proofs.History.Identity
import Repaint.Proofs.History.Track
import Repaint.Proofs.History.Refusal
import Repaint.Proofs.History.Reason
import Repaint.Proofs.History.Renewal
import Repaint.Proofs.History.Monotone
import Repaint.Proofs.History.Missing
import Repaint.Proofs.History.WindowDamage
import Repaint.Proofs.History.Windows
import Repaint.Proofs.History.Shadow
import Repaint.Proofs.History.Census
import Repaint.Proofs.Layer
import Repaint.Proofs.Region.Query
import Repaint.Proofs.Region.Rounded
import Repaint.Proofs.Counting
import Repaint.Proofs.Region.Cells
import Repaint.Proofs.Region.Equality
import Repaint.Proofs.Region.Integral
import Repaint.Proofs.Region.Order
import Repaint.Proofs.Region.Merged
import Repaint.Proofs.Region.Refill
import Repaint.Proofs.Trace.Cut
import Repaint.Proofs.Trace.Settled
import Repaint.Proofs.Trace.Polling
import Repaint.Proofs.History.Storage
import Repaint.Proofs.Decimal
import Repaint.Proofs.Json
import Repaint.Proofs.Trace.Timeline
import Repaint.Proofs.Trace.Lines
import Repaint.Proofs.Trace.Tally
