import Turnstile.Formula.Build
import Turnstile.Main
import Turnstile.Proofs.Decision
import Turnstile.Proofs.Freshness
import Turnstile.Proofs.Transcript
import Turnstile.Proofs.Countermodel
import Turnstile.Proofs.FirstOrder
import Turnstile.Proofs.Lockstep
import Turnstile.Proofs.Inference
import Turnstile.Proofs.Isolation
import Turnstile.Proofs.Depth
import Turnstile.Proofs.Equations
import Turnstile.Proofs.Respacing
import Turnstile.Proofs.Mention
import Turnstile.Proofs.Substitution
import Turnstile.Proofs.Enumeration
import Turnstile.Proofs.Issuing
import Turnstile.Proofs.Enclosure
import Turnstile.Proofs.SearchTree
import Turnstile.Proofs.Stream
import Turnstile.Proofs.Pieces
import Turnstile.Proofs.Arguments
import Turnstile.Proofs.Peeling
