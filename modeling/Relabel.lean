import Relabel.ClassFile.Basic
import Relabel.Output.FileTree
import Relabel.Proofs.CallSites
import Relabel.Proofs.CarriedFields
import Relabel.Proofs.ClassBuilding
import Relabel.Proofs.CommonSpellings
import Relabel.Proofs.CursorSessions
import Relabel.Proofs.DeclaredNames
import Relabel.Proofs.Deliveries
import Relabel.Proofs.DescriptorForms
import Relabel.Proofs.IdleRenaming
import Relabel.Proofs.LastLinks
import Relabel.Proofs.LateFaults
import Relabel.Proofs.LinkOrder
import Relabel.Proofs.LinkedNames
import Relabel.Proofs.ModeRefinement
import Relabel.Proofs.NestingLimit
import Relabel.Proofs.OutputPaths
import Relabel.Proofs.Overrides
import Relabel.Proofs.PassedBodies
import Relabel.Proofs.PlatformPrefixes
import Relabel.Proofs.PoolPartition
import Relabel.Proofs.PoolSharing
import Relabel.Proofs.PrefixExactness
import Relabel.Proofs.ReadBack
import Relabel.Proofs.ReadersAgree
import Relabel.Proofs.RefusedFacts
import Relabel.Proofs.RequestOrder
import Relabel.Proofs.RowOrder
import Relabel.Proofs.SharedCache
import Relabel.Proofs.SignatureRenaming
import Relabel.Proofs.ClassRoundTrip
