import Paraglob.Core.Atomicity
import Paraglob.Core.Clients
import Paraglob.Core.Consistency
import Paraglob.Core.Construction
import Paraglob.Core.Identity
import Paraglob.Core.Prefilter
import Paraglob.Multifast.Copies
import Paraglob.Multifast.Cost
import Paraglob.Multifast.Sharing
import Paraglob.Multifast.PrefixArray
import Paraglob.Multifast.Release
import Paraglob.Multifast.Nesting
