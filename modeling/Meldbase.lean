import Meldbase.Storage.PrimaryCapacity
import Meldbase.Logical.LogContents
import Meldbase.Logical.Acknowledgement
import Meldbase.Logical.Serializability
import Meldbase.Physical.OverflowValues
import Meldbase.Database.SubscriberDelivery
import Meldbase.Database.DocumentCodec
import Meldbase.Database.ReactiveResync
import Meldbase.Server.WorkspaceIsolation
import Meldbase.Server.AtMostOnce
import Meldbase.Server.RealtimeFrames
import Meldbase.Server.PolicyLeases
import Meldbase.Integrations.AnchorQuorum
import Meldbase.Integrations.LeaseQuorum
import Meldbase.Server.WorkerPolicies
import Meldbase.Database.RollbackProtection
import Meldbase.Database.CompoundKeyOrder
import Meldbase.Database.SpanExactness
import Meldbase.Storage.TreeIterator
