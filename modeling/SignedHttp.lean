import SignedHttp.Text.Ascii
import SignedHttp.Text.Base64
import SignedHttp.Text.Blank
import SignedHttp.Text.Decimal
import SignedHttp.Text.Percent
import SignedHttp.Hash
import SignedHttp.Crypto.Der
import SignedHttp.Crypto.Ecdsa
import SignedHttp.Crypto.Gcm
import SignedHttp.Time.Calendar
import SignedHttp.Time.HttpDate
import SignedHttp.Time.Timestamp
import SignedHttp.Request
import SignedHttp.Authorization
import SignedHttp.SigningString
import SignedHttp.Signing
import SignedHttp.Client
import SignedHttp.Nonce
import SignedHttp.Verifier
import SignedHttp.Migration
import SignedHttp.Protection
import SignedHttp.Store.Archive
import SignedHttp.Store.Choice
import SignedHttp.Message
import SignedHttp.Store.Memory
import SignedHttp.Proofs.HeaderName
import SignedHttp.Proofs.Authorization.Read
import SignedHttp.Proofs.Results
import SignedHttp.Proofs.Chain
import SignedHttp.Proofs.Verification
import SignedHttp.Proofs.Store.Remembering
import SignedHttp.Proofs.NonceLifetime
import SignedHttp.Proofs.Acceptance
import SignedHttp.Proofs.Text.Base64
import SignedHttp.Proofs.Text.Decimal
import SignedHttp.Proofs.Authorization.RoundTrip
import SignedHttp.Proofs.Key
import SignedHttp.Proofs.Field
import SignedHttp.Proofs.SigningString
import SignedHttp.Proofs.Signing
import SignedHttp.Proofs.SignedRequests
import SignedHttp.Proofs.Sending
import SignedHttp.Proofs.RejectedRequests
import SignedHttp.Proofs.Replay
import SignedHttp.Proofs.SingleUse
import SignedHttp.Proofs.Coverage
import SignedHttp.Proofs.AlgorithmLabels
import SignedHttp.Proofs.Target
import SignedHttp.Proofs.Lines
import SignedHttp.Proofs.Determination
import SignedHttp.Proofs.AlteredTimes
import SignedHttp.Proofs.BodyIntegrity
import SignedHttp.Proofs.Store.Interchange
import SignedHttp.Proofs.Purging
import SignedHttp.Proofs.ClientSeparation
import SignedHttp.Proofs.Text.Percent
import SignedHttp.Proofs.CanonicalTargets
import SignedHttp.Proofs.Authorization.Quoting
import SignedHttp.Proofs.UsableSettings
import SignedHttp.Proofs.Store.Interruption
import SignedHttp.Proofs.RepeatedMigration
import SignedHttp.Proofs.Text.Json
import SignedHttp.Proofs.KeyMaterial
import SignedHttp.Proofs.Store.Rows
import SignedHttp.Proofs.Store.Enrolment
import SignedHttp.Proofs.Availability
import SignedHttp.Proofs.Identity
import SignedHttp.Proofs.Counting
import SignedHttp.Proofs.Accounting
import SignedHttp.Proofs.PreparedNames
import SignedHttp.Proofs.SigningChanges
import SignedHttp.Proofs.Consulting
import SignedHttp.Proofs.TimeWindow
import SignedHttp.Proofs.CheckOrder
import SignedHttp.Proofs.Recomposition
import SignedHttp.Proofs.PlainTargets
import SignedHttp.Proofs.Migration
import SignedHttp.Proofs.MigrationCalls
import SignedHttp.Proofs.Store.Preparation
import SignedHttp.Proofs.Authorization.Commas
import SignedHttp.Proofs.Authorization.PartOrder
import SignedHttp.Proofs.Authorization.Rereading
import SignedHttp.Proofs.Authorization.Parts
import SignedHttp.Proofs.NameSources
import SignedHttp.Proofs.Averages
import SignedHttp.Proofs.PurgeInterval
