import Provenance.Account.Basic
import Provenance.Node
import Provenance.Revision.Reference
import Provenance.Secret
import Provenance.Supply.Refill
import Provenance.Proofs.Alteration
import Provenance.Proofs.AppendOnly
import Provenance.Proofs.Batches
import Provenance.Proofs.CanonicalForm
import Provenance.Proofs.Codec
import Provenance.Proofs.Feeds
import Provenance.Proofs.HonestWriter
import Provenance.Proofs.Judgement
import Provenance.Proofs.NeutralKey
import Provenance.Proofs.Offsets
import Provenance.Proofs.Redelivery
import Provenance.Proofs.Replica
import Provenance.Proofs.Reports
import Provenance.Proofs.SelfVerifying
import Provenance.Proofs.Separation
import Provenance.Proofs.Traceability
import Provenance.Proofs.WriteSets
import Provenance.Proofs.StagedKeys
import Provenance.Proofs.IdealLog
import Provenance.Proofs.IdentifierText
import Provenance.Proofs.Purging
import Provenance.Proofs.SelfDelimiting
import Provenance.Proofs.Strictness
import Provenance.Proofs.Castles
import Provenance.Proofs.PoolDiscipline
import Provenance.Proofs.StagedRevisions
import Provenance.Proofs.KeyOverlay
import Provenance.Proofs.RefillCycle
import Provenance.Proofs.SharedSecrets
import Provenance.Proofs.BlockModes
import Provenance.Proofs.Assembly
import Provenance.Proofs.Layouts
import Provenance.Proofs.PartitionText
import Provenance.Proofs.Payloads
