import Flatwire.Command.Docs
import Flatwire.Main
import Flatwire.Plugin.Script
import Flatwire.Proofs.Aliasing
import Flatwire.Proofs.Bookkeeping
import Flatwire.Proofs.ByteLists
import Flatwire.Proofs.Canonical
import Flatwire.Proofs.Confinement
import Flatwire.Proofs.Conflicts
import Flatwire.Proofs.Custody
import Flatwire.Proofs.Excerpts
import Flatwire.Proofs.Faults
import Flatwire.Proofs.Formatting
import Flatwire.Proofs.Interruption
import Flatwire.Proofs.Literals
import Flatwire.Proofs.Lossless
import Flatwire.Proofs.Overflow
import Flatwire.Proofs.PackageNames
import Flatwire.Proofs.Pixels
import Flatwire.Proofs.RandomAccess
import Flatwire.Proofs.Reordering
import Flatwire.Proofs.ReservedNames
import Flatwire.Proofs.SnakeNames
import Flatwire.Proofs.Stripping
import Flatwire.Proofs.Transparency
