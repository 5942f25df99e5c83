import Inheritance.Completion
import Inheritance.LogFormat
import Inheritance.Store
import Inheritance.Proofs.Accounting
import Inheritance.Proofs.Completeness
import Inheritance.Proofs.Reordering
import Inheritance.Proofs.Shuffling
import Inheritance.Proofs.Propagation
import Inheritance.Proofs.Rerun
import Inheritance.Proofs.FirstFailure
import Inheritance.Proofs.Provenance
import Inheritance.Proofs.Coherence
import Inheritance.Proofs.PassThrough
import Inheritance.Proofs.Transparency
import Inheritance.Proofs.Mirroring
import Inheritance.Proofs.Identity
import Inheritance.Proofs.Connectivity
import Inheritance.Proofs.Verdict
import Inheritance.Proofs.Arrangement
import Inheritance.Proofs.SlotGrouping
import Inheritance.Proofs.Leaves
import Inheritance.Proofs.Distance
import Inheritance.Proofs.Codes
import Inheritance.Proofs.Exchange
