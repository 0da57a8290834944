import MixedState.Main
import MixedState.InPlace.Kernel
import MixedState.InPlace.Machine
import MixedState.InPlace.Experiment
import MixedState.Proofs.Exact
import MixedState.Proofs.Basis.Bits
import MixedState.Proofs.Basis.Blocks
import MixedState.Proofs.Basis.Frame
import MixedState.Proofs.Basis.Joined
import MixedState.Proofs.Basis.Enumeration
import MixedState.Proofs.Basis.Parity
import MixedState.Proofs.Basis.Repeats
import MixedState.Proofs.Classical.Register
import MixedState.Proofs.Classical.Hex
import MixedState.Proofs.Classical.Comparison
import MixedState.Proofs.Classical.Width
import MixedState.Proofs.Random.Draw
import MixedState.Proofs.Double.Rounding
import MixedState.Proofs.Double.Order
import MixedState.Proofs.Double.Arithmetic
import MixedState.Proofs.Double.Units
import MixedState.Proofs.Double.Laws
import MixedState.Proofs.Double.Finite
import MixedState.Proofs.Json.Codec
import MixedState.Proofs.Json.Reading
import MixedState.Proofs.Instruction.Format
import MixedState.Proofs.Pauli
import MixedState.Proofs.Density.Kernel
import MixedState.Proofs.Density.Channel
import MixedState.Proofs.Density.Lift
import MixedState.Proofs.Density.Operators
import MixedState.Proofs.Density.Moves
import MixedState.Proofs.Density.Kraus
import MixedState.Proofs.Density.Renaming
import MixedState.Proofs.Density.Trace
import MixedState.Proofs.Density.Repeats
import MixedState.Proofs.Density.Sampling
import MixedState.Proofs.Gate.Unitary
import MixedState.Proofs.Noise.Model
import MixedState.Proofs.Machine.Action
import MixedState.Proofs.Machine.Operators
import MixedState.Proofs.Machine.Controlled
import MixedState.Proofs.Machine.Measurement
import MixedState.Proofs.Machine.Unitary
import MixedState.Proofs.Machine.Local
import MixedState.Proofs.Machine.Density
import MixedState.Proofs.Machine.Saves
import MixedState.Proofs.Machine.Start
import MixedState.Proofs.Machine.Physical
import MixedState.Proofs.Machine.Operate
import MixedState.Proofs.Machine.Commuting
import MixedState.Proofs.Machine.Readouts
import MixedState.Proofs.Machine.Signalling
import MixedState.Proofs.Machine.Renaming
import MixedState.Proofs.Machine.Losses
import MixedState.Proofs.Machine.Repeats
import MixedState.Proofs.Machine.Rewriting
import MixedState.Proofs.Machine.Shape
import MixedState.Proofs.Machine.Channels
import MixedState.Proofs.Machine.Observation
import MixedState.Proofs.Machine.Factors
import MixedState.Proofs.Machine.Textbook
import MixedState.Proofs.Machine.PartialTrace
import MixedState.Proofs.Machine.Resets
import MixedState.Proofs.Machine.Loading
import MixedState.Proofs.Machine.Bounds
import MixedState.Proofs.Machine.Safety
import MixedState.Proofs.Machine.Refusals
import MixedState.Proofs.Partition.Chunk
import MixedState.Proofs.Partition.Cover
import MixedState.Proofs.Partition.Kernels
import MixedState.Proofs.Partition.Diagonal
import MixedState.Proofs.Partition.Simulation
import MixedState.Proofs.Partition.Routes
import MixedState.Proofs.Partition.Gates
import MixedState.Proofs.Partition.Refinement
import MixedState.Proofs.Partition.ControlledPhase
import MixedState.Proofs.Partition.Collapse
import MixedState.Proofs.Partition.Siblings
import MixedState.Proofs.Partition.Together
import MixedState.Proofs.InPlace.Kernel
import MixedState.Proofs.InPlace.Dense
import MixedState.Proofs.InPlace.Gates
import MixedState.Proofs.InPlace.Experiment
import MixedState.Proofs.InPlace.Readout
import MixedState.Proofs.Results.History
import MixedState.Proofs.Results.Leniency
import MixedState.Proofs.Results.Counts
import MixedState.Proofs.Results.Labels
import MixedState.Proofs.Noise.Channels
import MixedState.Proofs.Noise.Readout
import MixedState.Proofs.Command.Shots
import MixedState.Proofs.Command.Draws
import MixedState.Proofs.Command.Memory
import MixedState.Proofs.Program.Check
