import Branchwise.Body.Numbering
import Branchwise.Declarations.Record
import Branchwise.Domain.Record
import Branchwise.Main
import Branchwise.Proofs.Alias.Storage
import Branchwise.Proofs.Calls.Chains
import Branchwise.Proofs.Declarations.Constants
import Branchwise.Proofs.Declarations.LoopExits
import Branchwise.Proofs.Declarations.Resolution
import Branchwise.Proofs.Depends.Edges
import Branchwise.Proofs.Depends.Order
import Branchwise.Proofs.Engine.Outputs
import Branchwise.Proofs.Flow.Complexity
import Branchwise.Proofs.Flow.Conditions
import Branchwise.Proofs.Flow.Representation
import Branchwise.Proofs.Flow.Ternaries
import Branchwise.Proofs.Layout.Requests
import Branchwise.Proofs.Session.Pairing
import Branchwise.Proofs.Synthesis.Exhaustion
import Branchwise.Text.Utf8
