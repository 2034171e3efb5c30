import QuantumProgram.Main
import QuantumProgram.Proofs.BackwardScan
import QuantumProgram.Proofs.GateRules
import QuantumProgram.Proofs.Meaning
import QuantumProgram.Proofs.RoundTrip
import QuantumProgram.Proofs.SortInterface
import QuantumProgram.Proofs.Batches
import QuantumProgram.Proofs.TerminalMeasurements
import QuantumProgram.Proofs.Constructors
import QuantumProgram.Proofs.NormalForm
import QuantumProgram.Proofs.OutsideReads
import QuantumProgram.Proofs.DeepReach
import QuantumProgram.Proofs.Loading
import QuantumProgram.Proofs.LocalOptimum
import QuantumProgram.Proofs.DoubleInverse
import QuantumProgram.Proofs.Symmetry
import QuantumProgram.Proofs.Substitution
import QuantumProgram.Proofs.AttachedTags
import QuantumProgram.Proofs.CallRecords
import QuantumProgram.Proofs.Repetition
import QuantumProgram.Proofs.MarkedKeys
import QuantumProgram.Proofs.Unitarity
import QuantumProgram.Proofs.FreshMoment
import QuantumProgram.Proofs.TableReads
import QuantumProgram.Proofs.WireIds
import QuantumProgram.Proofs.TerminalCalls
import QuantumProgram.Proofs.RepetitionCounts
import QuantumProgram.Proofs.Hashing
