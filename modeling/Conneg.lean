import Conneg.Orders.Service
import Conneg.Proofs.Accept.Threshold
import Conneg.Proofs.Accept.Variants
import Conneg.Proofs.Bson.Framing
import Conneg.Proofs.Bson.Writable
import Conneg.Proofs.Codec.Integer
import Conneg.Proofs.Codec.OneValue
import Conneg.Proofs.Codec.Records
import Conneg.Proofs.ContentType.Request
import Conneg.Proofs.Exchange.Delivery
import Conneg.Proofs.Exchange.Destination
import Conneg.Proofs.Exchange.Layers
import Conneg.Proofs.Exchange.Report
import Conneg.Proofs.Exchange.Sink
import Conneg.Proofs.Json.Double
import Conneg.Proofs.Json.RoundTrip
import Conneg.Proofs.MsgPack.RoundTrip
import Conneg.Proofs.Orders.Create
import Conneg.Proofs.Orders.Echo
import Conneg.Schema.Samples
