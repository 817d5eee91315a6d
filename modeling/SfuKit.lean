import SfuKit.Library.Announcement.Conservation
import SfuKit.Library.Announcement.Delivery
import SfuKit.Library.Announcement.Provenance
import SfuKit.Library.Announcement.Room
import SfuKit.Library.BigEndian
import SfuKit.Library.BitFields
import SfuKit.Library.BoundedMap
import SfuKit.Library.Broadcast
import SfuKit.Library.Cooldown
import SfuKit.Library.Interleaving
import SfuKit.Library.Kalman
import SfuKit.Library.Ladder
import SfuKit.Library.Ledger
import SfuKit.Library.Polling
import SfuKit.Library.Run
import SfuKit.Library.Streak
import SfuKit.Library.Sweep
import SfuKit.Library.Trend
import SfuKit.Model.Bandwidth.GoogCc
import SfuKit.Model.Bandwidth.RateControl
import SfuKit.Model.Bandwidth.Subscriber
import SfuKit.Model.Client
import SfuKit.Model.ClientFrame
import SfuKit.Model.Drive
import SfuKit.Model.DriveFrame
import SfuKit.Model.FrameHeaders
import SfuKit.Model.Ids
import SfuKit.Model.LayerSelector
import SfuKit.Model.Metrics
import SfuKit.Model.Net
import SfuKit.Model.Pacer
import SfuKit.Model.PeerDetector
import SfuKit.Model.Process
import SfuKit.Model.Registry
import SfuKit.Model.Server
import SfuKit.Model.Sframe
import SfuKit.Model.Tracks
import SfuKit.Tracks.CrossAdvertisement
import SfuKit.Tracks.Evolution
import SfuKit.Tracks.Heralds
import SfuKit.Tracks.Listings
import SfuKit.Tracks.Refinement
import SfuKit.Tracks.StaleSubscriptions
import SfuKit.Pacer.Advances
import SfuKit.Pacer.AudioOnly
import SfuKit.Pacer.Coherence
import SfuKit.Pacer.Convergence
import SfuKit.Pacer.Debounce
import SfuKit.Pacer.EventLog
import SfuKit.Pacer.Exposure
import SfuKit.Pacer.LayerLadder
import SfuKit.Pacer.Representation
import SfuKit.Pacer.SuspendCause
import SfuKit.Pacer.SuspendHistory
import SfuKit.Pacer.TickFloor
import SfuKit.Pacer.UpgradeEvidence
import SfuKit.Forwarding.Departure
import SfuKit.Forwarding.ExactlyOnce
import SfuKit.Forwarding.FrameHeaders
import SfuKit.Forwarding.Isolation
import SfuKit.Forwarding.KeyEpochFormat
import SfuKit.Forwarding.KeyframeGap
import SfuKit.Forwarding.KeyframeLayer
import SfuKit.Forwarding.LayerHints
import SfuKit.Forwarding.LayerTies
import SfuKit.Forwarding.Ledger
import SfuKit.Forwarding.OpenEntries
import SfuKit.Forwarding.PliRelay
import SfuKit.Forwarding.Provenance
import SfuKit.Forwarding.RelayRouting
import SfuKit.Forwarding.Simulcast
import SfuKit.Forwarding.Suspension
import SfuKit.Estimator.Aimd
import SfuKit.Estimator.Batching
import SfuKit.Estimator.Combiner
import SfuKit.Estimator.Components
import SfuKit.Estimator.Envelope
import SfuKit.Estimator.GradientFilter
import SfuKit.Estimator.Lifecycle
import SfuKit.Estimator.LossWindow
import SfuKit.Estimator.PhantomCongestion
import SfuKit.Estimator.RateController
import SfuKit.Estimator.Regression
import SfuKit.Estimator.Samples
import SfuKit.Estimator.SendTimes
import SfuKit.Estimator.SignedGradient
import SfuKit.Estimator.Sources
import SfuKit.Estimator.Trendline
import SfuKit.Metrics.Accounting
import SfuKit.Metrics.Churn
import SfuKit.Metrics.PliCounter
import SfuKit.Metrics.Series
import SfuKit.Speaker.Membership
import SfuKit.Server.Datagrams
import SfuKit.Server.Media
import SfuKit.Server.Refinement
import SfuKit.Server.Subscriptions
import SfuKit.Server.Turns
import SfuKit.Server.Wakeups
