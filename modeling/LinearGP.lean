import LinearGP.Catalog.Build
import LinearGP.Evaluation
import LinearGP.Liveness
import LinearGP.Loss
import LinearGP.Population.Basic
import LinearGP.Population.Options
import LinearGP.Proofs.Agreement
import LinearGP.Proofs.Catalog.Contents
import LinearGP.Proofs.Catalog.Forms
import LinearGP.Proofs.Catalog.Opcodes
import LinearGP.Proofs.Evaluation
import LinearGP.Proofs.Ieee.Order
import LinearGP.Proofs.Ieee.Product
import LinearGP.Proofs.Ieee.Sum
import LinearGP.Proofs.Indexing
import LinearGP.Proofs.Instruction.Effects
import LinearGP.Proofs.Instruction.Lanes
import LinearGP.Proofs.Instruction.Truthful
import LinearGP.Proofs.Layout.Dimensions
import LinearGP.Proofs.Layout.Regions
import LinearGP.Proofs.Layout.Sizes
import LinearGP.Proofs.Layout.Transfer
import LinearGP.Proofs.Liveness
import LinearGP.Proofs.Liveness.Bits
import LinearGP.Proofs.Liveness.Capacity
import LinearGP.Proofs.Liveness.Exactness
import LinearGP.Proofs.Population.Calls
import LinearGP.Proofs.Population.Champion
import LinearGP.Proofs.Population.Collapse
import LinearGP.Proofs.Population.Evaluation
import LinearGP.Proofs.Population.History
import LinearGP.Proofs.Population.Losses
import LinearGP.Proofs.Population.Soundness
import LinearGP.Proofs.Population.Threads
import LinearGP.Proofs.Population.Valid
import LinearGP.Proofs.Results
import LinearGP.Proofs.Samples
import LinearGP.Proofs.Samples.Grouping
import LinearGP.Proofs.Selection.Accounting
import LinearGP.Proofs.Selection.Completion
import LinearGP.Proofs.Selection.Mutation
import LinearGP.Proofs.Selection.Offspring
import LinearGP.Proofs.Selection.Replacement
import LinearGP.Proofs.Selection.Reproduction
import LinearGP.Proofs.Selection.Succession
import LinearGP.Proofs.Selection.Tournament
import LinearGP.Proofs.Standalone
import LinearGP.Proofs.Store.Addressing
import LinearGP.Proofs.Store.Image
import LinearGP.Proofs.Store.Passes
import LinearGP.Proofs.Store.Programs
import LinearGP.Proofs.Store.Reachable
import LinearGP.Proofs.Store.Rewriting
import LinearGP.Proofs.Store.Shape
import LinearGP.Proofs.ThreadedCode.Cells
import LinearGP.Proofs.ThreadedCode.Confinement
import LinearGP.Proofs.ThreadedCode.Dispatch
import LinearGP.Proofs.ThreadedCode.Refinement
import LinearGP.Proofs.ThreadedCode.Touches
import LinearGP.Proofs.Vectorization
import LinearGP.Proofs.Wrapping
import LinearGP.Random.Pcg
import LinearGP.Selection.Mutation
import LinearGP.Selection.Reproduction
import LinearGP.Selection.Tournament
import LinearGP.Standalone
import LinearGP.Store.Transform
import LinearGP.ThreadedCode.Run
