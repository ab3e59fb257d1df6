import Ascon.Attached
import Ascon.Masking.Command
import Ascon.Proofs.Aead.Causality
import Ascon.Proofs.Attached
import Ascon.Proofs.Bitwise
import Ascon.Proofs.Contracts
import Ascon.Proofs.Intake
import Ascon.Proofs.Masking.Footprint
import Ascon.Proofs.Masking.Refusals
import Ascon.Proofs.Masking.Rerandomization
import Ascon.Proofs.Masking.Run
import Ascon.Proofs.Masking.Secrecy
import Ascon.Proofs.Masking.Spending
import Ascon.Proofs.Nonce
import Ascon.Proofs.Separation
import Ascon.Proofs.Siv.TwoPass
import Ascon.Proofs.State.Memory
import Ascon.Proofs.Xof.Alignment
import Ascon.Proofs.Xof.Readers
import Ascon.Random.Generator
import Ascon.Session
import Ascon.State.Command
import Ascon.Proofs.Masking.Equidistribution
