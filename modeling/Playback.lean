import Playback.Code.Listing
import Playback.Proofs.Allowance
import Playback.Proofs.Alternation
import Playback.Proofs.Alternatives
import Playback.Proofs.Ceiling
import Playback.Proofs.Containment
import Playback.Proofs.Erasure
import Playback.Proofs.Frozen
import Playback.Proofs.Identity
import Playback.Proofs.Payload
import Playback.Proofs.Iterations
import Playback.Proofs.Leftover
import Playback.Proofs.Reported
import Playback.Proofs.Strays
import Playback.Proofs.Tally
import Playback.Proofs.Truncation
import Playback.Proofs.Rounding
import Playback.Proofs.Sorting
import Playback.Proofs.Representation
import Playback.Proofs.Searching
import Playback.Proofs.Sets
