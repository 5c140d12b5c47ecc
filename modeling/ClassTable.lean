import ClassTable.Session
import ClassTable.Program.Resolution
import ClassTable.Program.Supertypes
import ClassTable.Registry.Restricted
import ClassTable.Registry.Capacity
import ClassTable.Proofs.Program.Uniqueness
import ClassTable.Proofs.Program.OwnName
import ClassTable.Proofs.Program.MemberPath
import ClassTable.Proofs.Program.Qualified
import ClassTable.Proofs.Program.Pass
import ClassTable.Proofs.Program.Interleaving
import ClassTable.Proofs.Program.Readable
import ClassTable.Proofs.Program.Ordinals
import ClassTable.Proofs.Program.Integrity
import ClassTable.Proofs.Registry.OrderIndependence
import ClassTable.Proofs.Session.Passes
import ClassTable.Proofs.Session.EnumBases
import ClassTable.Proofs.Session.Liveness
import ClassTable.Proofs.Session.FailedQueries
import ClassTable.Proofs.Session.Capacity
import ClassTable.Proofs.Reference.Dimensions
import ClassTable.Proofs.Reference.ElementName
import ClassTable.Proofs.Reference.Extent
import ClassTable.Proofs.Modifier
import ClassTable.Proofs.Program.Index
import ClassTable.Proofs.Program.Outwards
import ClassTable.Proofs.Program.Unfolding
import ClassTable.Proofs.Program.Services
import ClassTable.Proofs.Registry.Naming
import ClassTable.Proofs.Program.AppendOnly
