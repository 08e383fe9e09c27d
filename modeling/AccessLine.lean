import AccessLine.Text.Utf8
import AccessLine.Text.Base64
import AccessLine.Number.Decimal
import AccessLine.Http.Method
import AccessLine.Http.Header
import AccessLine.Http.Uri
import AccessLine.Net.Address
import AccessLine.Exchange.View
import AccessLine.Table
import AccessLine.Template.Parser
import AccessLine.Template.Offsets
import AccessLine.Token.Standard
import AccessLine.Token.Custom
import AccessLine.Line.Builder
import AccessLine.Event
import AccessLine.Registry.Plain
import AccessLine.Exchange.Bare
import AccessLine.Session.Basic
import AccessLine.Http.Malformed
import AccessLine.Server.Client
import AccessLine.Proofs.Exchange.History
import AccessLine.Proofs.Exchange.Settlement
import AccessLine.Proofs.Exchange.Transparency
import AccessLine.Proofs.Session.Projection
import AccessLine.Proofs.Exchange.Host
import AccessLine.Proofs.Exchange.Drop
import AccessLine.Proofs.Registry.Acts
import AccessLine.Proofs.Registry.Cache
import AccessLine.Proofs.Registry.Identity
import AccessLine.Proofs.Exchange.Arrival
import AccessLine.Proofs.Session.Turn
import AccessLine.Proofs.Exchange.Clock
import AccessLine.Proofs.Session.Clock
import AccessLine.Proofs.Session.Balance
import AccessLine.Proofs.Session.Independence
import AccessLine.Proofs.Registry.Compilations
import AccessLine.Proofs.Registry.Refusal
import AccessLine.Proofs.Registry.Lookups
import AccessLine.Proofs.Session.Holding
import AccessLine.Proofs.Registry.Supply
import AccessLine.Proofs.Session.Binding
import AccessLine.Proofs.Http.Breaks
import AccessLine.Proofs.Template.Printing
import AccessLine.Proofs.Token.Breaks
import AccessLine.Proofs.Template.Reading
import AccessLine.Proofs.Text.Utf8
import AccessLine.Proofs.Text.Base64
import AccessLine.Proofs.Token.Credentials
import AccessLine.Proofs.Token.Target
import AccessLine.Proofs.Token.Passwords
import AccessLine.Proofs.Server.Loop
import AccessLine.Proofs.Server.Ledger
import AccessLine.Proofs.Server.Drain
import AccessLine.Proofs.Registry.Likeness
import AccessLine.Proofs.Exchange.Silence
import AccessLine.Proofs.Session.Questions
import AccessLine.Proofs.Session.Silence
import AccessLine.Proofs.Session.Skipping
import AccessLine.Proofs.Line.Variants
import AccessLine.Proofs.Http.Fields
import AccessLine.Proofs.Number.Elapsed
import AccessLine.Proofs.Template.Concatenation
import AccessLine.Proofs.Number.Numerals
import AccessLine.Proofs.Number.Scaling
import AccessLine.Proofs.Token.FixedPlaces
import AccessLine.Proofs.Number.Literals
import AccessLine.Proofs.Token.Places
import AccessLine.Proofs.Text.Boundaries
import AccessLine.Proofs.Template.Offsets
