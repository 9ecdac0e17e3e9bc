import PageRouting.Main
import PageRouting.Proofs.FileSet
import PageRouting.Proofs.RoundTrip
import PageRouting.Proofs.Following
import PageRouting.Proofs.Standing
import PageRouting.Proofs.Dating
import PageRouting.Proofs.Precedence
import PageRouting.Proofs.Mounting
import PageRouting.Proofs.SiblingOrder
import PageRouting.Proofs.Settling
import PageRouting.Proofs.Wrappers
import PageRouting.Proofs.Failing
import PageRouting.Proofs.SiblingNames
import PageRouting.Proofs.Requiring
import PageRouting.Proofs.StaticPaths
import PageRouting.Proofs.SingleSlashes
import PageRouting.Proofs.Discovery
import PageRouting.Proofs.Keeping
import PageRouting.Proofs.Antisymmetry
import PageRouting.Proofs.Preorder
import PageRouting.Proofs.OptionalMarkers
import PageRouting.Proofs.PassChanges
import PageRouting.Proofs.Resting
import PageRouting.Proofs.Leaves
import PageRouting.Proofs.PagePaths
import PageRouting.Proofs.ReadingBack
import PageRouting.Proofs.Commuting
import PageRouting.Proofs.Counting
import PageRouting.Proofs.Specifiers
import PageRouting.Proofs.Grouping
import PageRouting.Proofs.Outputs
