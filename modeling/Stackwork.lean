import Stackwork.Proofs.Archive.Ending
import Stackwork.Proofs.Archive.Invariant
import Stackwork.Proofs.Archive.Reloading
import Stackwork.Proofs.Code.Segmentation
import Stackwork.Proofs.Image.Stability
import Stackwork.Proofs.Lang.Acceptance
import Stackwork.Proofs.Lang.Enums
import Stackwork.Proofs.Lang.Independence
import Stackwork.Proofs.Lang.Indirect
import Stackwork.Proofs.Lang.Lookup
import Stackwork.Proofs.Lang.Lowering
import Stackwork.Proofs.Lang.Recompiling
import Stackwork.Proofs.Machine.Calling
import Stackwork.Proofs.Machine.Watching
import Stackwork.Proofs.Manifest.Nearest
import Stackwork.Proofs.Module.Layout
import Stackwork.Proofs.Ty.Identity
