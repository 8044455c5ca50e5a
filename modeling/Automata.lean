import Automata.Automaton.Isomorphism
import Automata.Counterexample
import Automata.Main
import Automata.Proofs.Choice
import Automata.Proofs.CommandLine
import Automata.Proofs.Comparability
import Automata.Proofs.Complement
import Automata.Proofs.Counterexample
import Automata.Proofs.Dot.Labels
import Automata.Proofs.Enumeration
import Automata.Proofs.Idempotence
import Automata.Proofs.Interchange
import Automata.Proofs.Listing.Errors
import Automata.Proofs.Machines
import Automata.Proofs.OrderedRenaming
import Automata.Proofs.Partition.Canonical
import Automata.Proofs.Partition.Monotone
import Automata.Proofs.Partition.Splitting
import Automata.Proofs.Relabelling
import Automata.Proofs.TextFiles
